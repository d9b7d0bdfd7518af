import AethelDB.Proxy.Cancel

/-!
# The cancellation key in a stream that arrives in chunks

The backend sends typed messages, and the scanner sees them in whatever chunks the reads of the
splice return. `key_capture_any_chunking` is about every stream of messages and every way to cut
it: the key of the first `BackendKeyData` is returned once, by the push of the chunk that completes
the message, if the stream up to there is not longer than `SCAN_CAP`; and behind a `ReadyForQuery`
nothing is returned.

One message at the front of the buffer settles a round of the loop (`scan_encode`,
`scan_of_short`). A push that does not get to the end of the message in question leaves the part of
the stream behind the messages it could complete (`scan_wait`), which is shorter than what has
arrived, so the bound on the buffer is not reached before the key.
-/

namespace AethelDB.Proxy

/-- A typed message. Its length counts itself and is an `i32`. -/
structure BackendMessage where
  typ : UInt8
  payload : List UInt8
  fits : payload.length + 4 < 2 ^ 31

namespace BackendMessage

/-- The type byte and the length. -/
def header (m : BackendMessage) : List UInt8 :=
  m.typ :: i32ToBe (Int32.ofNat (m.payload.length + 4))

def encode (m : BackendMessage) : List UInt8 := m.header ++ m.payload

/-- A `BackendKeyData` whose length is 12. -/
def IsKeyData (m : BackendMessage) : Prop :=
  m.typ = MSG_BACKEND_KEY_DATA ∧ m.payload.length + 4 = BACKEND_KEY_DATA_LEN

instance (m : BackendMessage) : Decidable m.IsKeyData := inferInstanceAs (Decidable (_ ∧ _))

def cancelKey (m : BackendMessage) : CancelKey :=
  (i32FromBe (m.payload.take 4), i32FromBe ((m.payload.drop 4).take 4))

/-- Neither a key nor a `ReadyForQuery`. -/
def Passed (m : BackendMessage) : Prop := ¬ m.IsKeyData ∧ m.typ ≠ MSG_READY_FOR_QUERY

instance (m : BackendMessage) : Decidable m.Passed := inferInstanceAs (Decidable (_ ∧ _))

@[simp] theorem length_header (m : BackendMessage) : m.header.length = 5 := rfl

@[simp] theorem length_encode (m : BackendMessage) : m.encode.length = 5 + m.payload.length := by
  rw [encode, List.length_append, length_header]

end BackendMessage

def wire (ms : List BackendMessage) : List UInt8 := ms.flatMap BackendMessage.encode

theorem wire_cons (m : BackendMessage) (ms : List BackendMessage) :
    wire (m :: ms) = m.encode ++ wire ms := List.flatMap_cons

theorem wire_append (ms ms' : List BackendMessage) : wire (ms ++ ms') = wire ms ++ wire ms' :=
  List.flatMap_append

/-! ## One round of the loop -/

section Round

variable {m : BackendMessage}

theorem length_field (m : BackendMessage) :
    (Int32.ofNat (m.payload.length + 4)).toNatClampNeg = m.payload.length + 4
      ∧ ¬ Int32.ofNat (m.payload.length + 4) < 4 := by
  have hint : (Int32.ofNat (m.payload.length + 4)).toInt = (m.payload.length + 4 : Nat) :=
    Int32.toInt_ofNat_of_lt m.fits
  refine ⟨?_, ?_⟩
  · rw [Int32.toNatClampNeg, hint, Int.toNat_natCast]
  · rw [Int32.lt_iff_toInt_lt, hint]
    have hfour : (4 : Int32).toInt = 4 := rfl
    omega

theorem scan_header (m : BackendMessage) (fuel : Nat) (tail : List UInt8) :
    scan (fuel + 1) (m.header ++ tail)
      = if tail.length < m.payload.length then .wait (m.header ++ tail)
        else if m.IsKeyData then .found (i32FromBe (tail.take 4), i32FromBe ((tail.drop 4).take 4))
        else if m.typ = MSG_READY_FOR_QUERY then .stop
        else scan fuel (tail.drop m.payload.length) := by
  obtain ⟨hlen, hvalid⟩ := length_field m
  have htyp : (m.header ++ tail).headD 0 = m.typ := rfl
  have hfield : ((m.header ++ tail).drop 1).take 4 = i32ToBe (Int32.ofNat (m.payload.length + 4)) := rfl
  have hdrop : ∀ n, (m.header ++ tail).drop (5 + n) = tail.drop n := by
    intro n
    rw [← m.length_header, List.drop_length_add_append]
  have htotal : (m.header ++ tail).length = 5 + tail.length := List.length_append
  have hshort : (m.header ++ tail).length - 1 < m.payload.length + 4
      ↔ tail.length < m.payload.length := by omega
  have hnext : (m.header ++ tail).drop (1 + (m.payload.length + 4)) = tail.drop m.payload.length := by
    rw [show 1 + (m.payload.length + 4) = 5 + m.payload.length by omega, hdrop]
  rw [scan, if_pos (by omega)]
  simp only [htyp, hfield, i32FromBe_i32ToBe, hlen, if_neg hvalid, hshort, hdrop 0, hdrop 4, hnext,
    List.drop_zero]
  rfl

/-- A message of which not all has arrived. -/
theorem scan_of_short {buf : List UInt8} (h : buf <+: m.encode) (hlt : buf.length < m.encode.length)
    (fuel : Nat) : scan fuel buf = .wait buf := by
  cases fuel with
  | zero => rfl
  | succ fuel =>
    by_cases hfive : 5 ≤ buf.length
    · obtain ⟨tail, rfl⟩ : m.header <+: buf :=
        List.prefix_of_prefix_length_le (List.prefix_append _ _) h hfive
      rw [BackendMessage.length_encode, List.length_append, BackendMessage.length_header] at hlt
      rw [scan_header, if_pos (by omega)]
    · rw [scan, if_neg hfive]

/-- The loop on the whole buffer, as `push` runs it. -/
theorem scan_encode (m : BackendMessage) (rest : List UInt8) :
    scan (m.encode ++ rest).length (m.encode ++ rest)
      = if m.IsKeyData then .found m.cancelKey
        else if m.typ = MSG_READY_FOR_QUERY then .stop
        else scan rest.length rest := by
  have htotal : (m.encode ++ rest).length = (4 + m.payload.length + rest.length) + 1 := by
    rw [List.length_append, BackendMessage.length_encode]
    omega
  rw [htotal, BackendMessage.encode, List.append_assoc, scan_header,
    if_neg (by rw [List.length_append]; omega)]
  by_cases hkey : m.IsKeyData
  · -- both fields are in the payload
    have height : m.payload.length = 8 := Nat.add_right_cancel hkey.2
    rw [if_pos hkey, if_pos hkey, BackendMessage.cancelKey, List.take_append_of_le_length (by omega),
      List.drop_append_of_le_length (by omega), List.take_append_of_le_length (by simp; omega)]
  · have hfuel : scan (4 + m.payload.length + rest.length) rest = scan rest.length rest :=
      scan_eq_of_le (by omega) le_rfl
    rw [if_neg hkey, if_neg hkey, List.drop_left, hfuel]

end Round

/-! ## A buffer that is the front of a stream -/

section Buffer

variable {m : BackendMessage} {pre post : List BackendMessage} {buf : List UInt8}

/-- A buffer that ends inside `pre` or `m`: the loop passes the messages that are complete. -/
theorem scan_wait (hpre : ∀ x ∈ pre, x.Passed) (hbuf : buf <+: wire (pre ++ m :: post))
    (hlt : buf.length < (wire (pre ++ [m])).length) :
    ∃ passed left rest, pre = passed ++ left ∧ buf = wire passed ++ rest
      ∧ scan buf.length buf = .wait rest := by
  induction pre generalizing buf with
  | nil =>
    rw [List.nil_append, wire_cons] at hbuf hlt
    have hshort : buf <+: m.encode :=
      List.prefix_of_prefix_length_le hbuf (List.prefix_append _ _) (by simpa [wire] using hlt.le)
    refine ⟨[], [], buf, rfl, rfl, scan_of_short hshort (by simpa [wire] using hlt) _⟩
  | cons x pre ih =>
    rw [List.cons_append, wire_cons] at hbuf hlt
    by_cases hx : buf.length < x.encode.length
    · have hshort : buf <+: x.encode :=
        List.prefix_of_prefix_length_le hbuf (List.prefix_append _ _) hx.le
      exact ⟨[], x :: pre, buf, rfl, rfl, scan_of_short hshort hx _⟩
    · obtain ⟨buf', rfl⟩ : x.encode <+: buf :=
        List.prefix_of_prefix_length_le (List.prefix_append _ _) hbuf (not_lt.mp hx)
      obtain ⟨hkey, hready⟩ := hpre x List.mem_cons_self
      have hbuf' : buf' <+: wire (pre ++ m :: post) := (List.prefix_append_right_inj _).mp hbuf
      have hlt' : buf'.length < (wire (pre ++ [m])).length := by
        rw [List.length_append, List.length_append] at hlt
        omega
      obtain ⟨passed, left, rest, hsplit, hrest, hscan⟩ :=
        ih (fun y hy => hpre y (List.mem_cons_of_mem _ hy)) hbuf' hlt'
      refine ⟨x :: passed, left, rest, by rw [hsplit, List.cons_append], ?_, ?_⟩
      · rw [wire_cons, List.append_assoc, ← hrest]
      · rw [scan_encode, if_neg hkey, if_neg hready, hscan]

theorem scan_reach (hpre : ∀ x ∈ pre, x.Passed) (rest : List UInt8) :
    scan (wire pre ++ (m.encode ++ rest)).length (wire pre ++ (m.encode ++ rest))
      = scan (m.encode ++ rest).length (m.encode ++ rest) := by
  induction pre with
  | nil => rfl
  | cons x pre ih =>
    obtain ⟨hkey, hready⟩ := hpre x List.mem_cons_self
    rw [wire_cons, List.append_assoc, scan_encode, if_neg hkey, if_neg hready]
    exact ih fun y hy => hpre y (List.mem_cons_of_mem _ hy)

end Buffer

/-! ## Pushes -/

namespace KeyScanner

/-- What the pushes of the chunks return. -/
def pushAll : KeyScanner → List (List UInt8) → List (Option CancelKey)
  | _, [] => []
  | s, chunk :: chunks => (s.push chunk).2 :: (s.push chunk).1.pushAll chunks

theorem pushAll_of_done {s : KeyScanner} (h : s.done = true) (chunks : List (List UInt8)) :
    s.pushAll chunks = List.replicate chunks.length none := by
  induction chunks with
  | nil => rfl
  | cons chunk chunks ih =>
    have hpush : s.push chunk = (s, none) := if_pos h
    rw [pushAll, hpush, ih]
    rfl

section Streams

variable {s : KeyScanner} {m : BackendMessage} {pre post : List BackendMessage} {chunk : List UInt8}

/-- **A push that does not complete `m`**, of a scanner whose buffer is the front of the stream. -/
theorem push_wait (hdone : s.done = false) (hpre : ∀ x ∈ pre, x.Passed)
    (hbuf : s.buf ++ chunk <+: wire (pre ++ m :: post))
    (hlt : (s.buf ++ chunk).length < (wire (pre ++ [m])).length) :
    ∃ passed left rest, pre = passed ++ left ∧ s.buf ++ chunk = wire passed ++ rest
      ∧ s.push chunk = (⟨rest, decide (SCAN_CAP < rest.length)⟩, none) := by
  obtain ⟨passed, left, rest, hsplit, hrest, hscan⟩ := scan_wait hpre hbuf hlt
  refine ⟨passed, left, rest, hsplit, hrest, ?_⟩
  simp only [push, hdone, Bool.false_eq_true, if_false, hscan]

/-- **A push that completes `m`.** -/
theorem push_reach (hdone : s.done = false) (hpre : ∀ x ∈ pre, x.Passed)
    (hbuf : s.buf ++ chunk <+: wire (pre ++ m :: post))
    (hle : (wire (pre ++ [m])).length ≤ (s.buf ++ chunk).length) :
    (m.IsKeyData → s.push chunk = (⟨s.buf ++ chunk, true⟩, some m.cancelKey))
      ∧ (m.typ = MSG_READY_FOR_QUERY → s.push chunk = (⟨s.buf ++ chunk, true⟩, none)) := by
  obtain ⟨rest, hrest⟩ : wire (pre ++ [m]) <+: s.buf ++ chunk := by
    refine List.prefix_of_prefix_length_le ⟨wire post, ?_⟩ hbuf hle
    rw [← wire_append, List.append_assoc, List.singleton_append]
  have hscan : scan (s.buf ++ chunk).length (s.buf ++ chunk)
      = if m.IsKeyData then .found m.cancelKey
        else if m.typ = MSG_READY_FOR_QUERY then .stop
        else scan rest.length rest := by
    have hm : wire [m] = m.encode := List.flatMap_singleton _ _
    rw [← hrest, wire_append, List.append_assoc, hm, scan_reach hpre, scan_encode]
  refine ⟨fun hkey => ?_, fun hready => ?_⟩
  · rw [if_pos hkey] at hscan
    simp only [push, hdone, Bool.false_eq_true, if_false, hscan]
  · have hkey : ¬ m.IsKeyData := fun hkey => absurd (hkey.1.symm.trans hready) (by decide)
    rw [if_neg hkey, if_pos hready] at hscan
    simp only [push, hdone, Bool.false_eq_true, if_false, hscan]

/-- What is left of the stream and of the buffer behind the messages that were passed. -/
theorem left_of_passed {passed left : List BackendMessage} {rest : List UInt8}
    {chunks : List (List UInt8)} (hrest : s.buf ++ chunk = wire passed ++ rest)
    (hbuf : s.buf ++ (chunk :: chunks).flatten = wire (passed ++ left ++ m :: post)) :
    rest ++ chunks.flatten = wire (left ++ m :: post) := by
  rw [List.flatten_cons, ← List.append_assoc, hrest, List.append_assoc, List.append_assoc,
    wire_append] at hbuf
  exact List.append_cancel_left hbuf

theorem pushAll_key (hkey : m.IsKeyData) :
    ∀ {chunks : List (List UInt8)} {s : KeyScanner} {pre : List BackendMessage},
      s.done = false → (∀ x ∈ pre, x.Passed) →
      s.buf ++ chunks.flatten = wire (pre ++ m :: post) →
      s.buf.length < (wire (pre ++ [m])).length → (wire (pre ++ [m])).length ≤ SCAN_CAP →
      ∃ before chunk after, chunks = before ++ chunk :: after
        ∧ (s.buf ++ before.flatten).length < (wire (pre ++ [m])).length
        ∧ (wire (pre ++ [m])).length ≤ (s.buf ++ (before ++ [chunk]).flatten).length
        ∧ s.pushAll chunks = List.replicate before.length none
            ++ some m.cancelKey :: List.replicate after.length none := by
  intro chunks
  induction chunks with
  | nil =>
    intro s pre _ _ hbuf hlt _
    -- the stream would end before `m` does
    have hwhole : (wire (pre ++ m :: post)).length
        = (wire (pre ++ [m])).length + (wire post).length := by
      rw [← List.length_append, ← wire_append, List.append_assoc, List.singleton_append]
    rw [List.flatten_nil, List.append_nil] at hbuf
    rw [hbuf] at hlt
    omega
  | cons chunk chunks ih =>
    intro s pre hdone hpre hbuf hlt hcap
    have hfront : s.buf ++ chunk <+: wire (pre ++ m :: post) :=
      ⟨chunks.flatten, by rw [← hbuf, List.flatten_cons, List.append_assoc]⟩
    by_cases hshort : (s.buf ++ chunk).length < (wire (pre ++ [m])).length
    · obtain ⟨passed, left, rest, rfl, hrest, hpush⟩ := push_wait hdone hpre hfront hshort
      have hlen : (s.buf ++ chunk).length = (wire passed).length + rest.length := by
        rw [hrest, List.length_append]
      have hend : (wire (passed ++ left ++ [m])).length
          = (wire passed).length + (wire (left ++ [m])).length := by
        rw [List.append_assoc, wire_append, List.length_append]
      have hopen : decide (SCAN_CAP < rest.length) = false := decide_eq_false (by omega)
      rw [hopen] at hpush
      obtain ⟨before, found, after, hsplit, hbefore, hafter, hout⟩ :=
        ih (s := ⟨rest, false⟩) rfl (fun x hx => hpre x (List.mem_append_right _ hx))
          (left_of_passed hrest hbuf) (by dsimp only; omega) (by omega)
      refine ⟨chunk :: before, found, after, by rw [hsplit, List.cons_append], ?_, ?_, ?_⟩
      · rw [List.flatten_cons, ← List.append_assoc, hrest]
        simp only [List.length_append] at hbefore hend ⊢
        omega
      · rw [List.cons_append, List.flatten_cons, ← List.append_assoc, hrest]
        simp only [List.length_append] at hafter hend ⊢
        omega
      · rw [pushAll, hpush, hout, List.length_cons, List.replicate_succ, List.cons_append]
    · have hpush := (push_reach hdone hpre hfront (not_lt.mp hshort)).1 hkey
      refine ⟨[], chunk, chunks, rfl, by simpa using hlt, by simpa using not_lt.mp hshort, ?_⟩
      rw [pushAll, hpush, pushAll_of_done rfl]
      rfl

theorem pushAll_ready (hready : m.typ = MSG_READY_FOR_QUERY) :
    ∀ {chunks : List (List UInt8)} {s : KeyScanner} {pre : List BackendMessage},
      (∀ x ∈ pre, x.Passed) → s.buf ++ chunks.flatten = wire (pre ++ m :: post) →
      s.pushAll chunks = List.replicate chunks.length none := by
  intro chunks
  induction chunks with
  | nil => exact fun _ _ => rfl
  | cons chunk chunks ih =>
    intro s pre hpre hbuf
    have hfront : s.buf ++ chunk <+: wire (pre ++ m :: post) :=
      ⟨chunks.flatten, by rw [← hbuf, List.flatten_cons, List.append_assoc]⟩
    cases hdone : s.done with
    | true => exact pushAll_of_done hdone _
    | false =>
      by_cases hshort : (s.buf ++ chunk).length < (wire (pre ++ [m])).length
      · obtain ⟨passed, left, rest, rfl, hrest, hpush⟩ := push_wait hdone hpre hfront hshort
        rw [pushAll, hpush, ih (fun x hx => hpre x (List.mem_append_right _ hx))
          (left_of_passed hrest hbuf)]
        rfl
      · have hpush := (push_reach hdone hpre hfront (not_lt.mp hshort)).2 hready
        rw [pushAll, hpush, pushAll_of_done rfl]
        rfl

end Streams

end KeyScanner

/-- **Key capture does not depend on chunking.** The stream is `pre`, a message `m` and more, with
no key and no `ReadyForQuery` in `pre`. If `m` is a key that ends within `SCAN_CAP`, the push of the
chunk that completes it returns the key, and the others return nothing; if it is a `ReadyForQuery`,
no push returns a key. -/
theorem key_capture_any_chunking (pre post : List BackendMessage) (m : BackendMessage)
    (hpre : ∀ x ∈ pre, x.Passed) (chunks : List (List UInt8))
    (hchunks : chunks.flatten = wire (pre ++ m :: post)) :
    (m.IsKeyData → (wire (pre ++ [m])).length ≤ SCAN_CAP →
        ∃ before chunk after, chunks = before ++ chunk :: after
          ∧ before.flatten.length < (wire (pre ++ [m])).length
          ∧ (wire (pre ++ [m])).length ≤ (before ++ [chunk]).flatten.length
          ∧ KeyScanner.new.pushAll chunks = List.replicate before.length none
              ++ some m.cancelKey :: List.replicate after.length none)
      ∧ (m.typ = MSG_READY_FOR_QUERY →
        KeyScanner.new.pushAll chunks = List.replicate chunks.length none) := by
  have hbuf : KeyScanner.new.buf ++ chunks.flatten = wire (pre ++ m :: post) := hchunks
  refine ⟨fun hkey hcap => ?_, fun hready => KeyScanner.pushAll_ready hready hpre hbuf⟩
  refine KeyScanner.pushAll_key hkey rfl hpre hbuf ?_ hcap
  rw [wire_append, List.length_append, wire_cons, List.length_append, BackendMessage.length_encode]
  show 0 < _
  omega

/-- `AuthenticationOk`. -/
def authenticationOk : BackendMessage := ⟨82, [0, 0, 0, 0], by decide⟩

/-- The key with process id -7 and secret 99. -/
def keySample : BackendMessage := ⟨MSG_BACKEND_KEY_DATA, [255, 255, 255, 249, 0, 0, 0, 99], by decide⟩

def readySample : BackendMessage := ⟨MSG_READY_FOR_QUERY, [73], by decide⟩

/-- The three messages, cut in the length of the second, with an empty chunk between. -/
def cutSample : List (List UInt8) :=
  [authenticationOk.encode ++ [75, 0, 0], [], [0, 12] ++ keySample.payload ++ readySample.encode]

theorem key_capture_any_chunking_cut :
    keySample.cancelKey = (-7, 99)
      ∧ ∃ before chunk after, cutSample = before ++ chunk :: after
        ∧ before.flatten.length < (wire [authenticationOk, keySample]).length
        ∧ (wire [authenticationOk, keySample]).length ≤ (before ++ [chunk]).flatten.length
        ∧ KeyScanner.new.pushAll cutSample = List.replicate before.length none
            ++ some keySample.cancelKey :: List.replicate after.length none := by
  refine ⟨by decide, ?_⟩
  exact (key_capture_any_chunking [authenticationOk] [readySample] keySample (by decide) cutSample
    rfl).1 (by decide) (by decide)

end AethelDB.Proxy
