import AethelDB.Pageserver.Framing

/-!
# Framing does not depend on how the bytes arrive

The WAL receiver feeds the decoder whatever the network hands it, and polls until the decoder
asks for more. A chunk may end anywhere: in the padding before a record, in a page header, in
a length field, in the zeros that end a page. A poll passes some of these at once and leaves
others alone, so two decoders that were fed the same bytes can be in different places between
two chunks.

`Poll` says once what a call of `poll_decode` can do. Bytes that arrive later do not change a
record or an error that is already there (`Poll.feedBytes_settled`), and a poll that ran dry
did work the next poll would have done anyway (`Poll.feedBytes_none`). Draining after every
chunk is then draining once.
-/

namespace AethelDB.Pageserver

namespace WalStreamDecoder

/-! ## What a poll does -/

/-- A call of `poll_decode`, from the decoder before it to the decoder after it and what
it returns. -/
inductive Poll : WalStreamDecoder → WalStreamDecoder → Polled → Prop
  | padMissing {d : WalStreamDecoder} (hshort : d.buf.length < d.misalignPad) :
    Poll d d (.ok none)
  | pad {d d' : WalStreamDecoder} {r : Polled} (hpad : d.misalignPad ≠ 0)
    (hlen : d.misalignPad ≤ d.buf.length) (rest : Poll (d.consume d.misalignPad) d' r) :
    Poll d d' r
  | lengthBad {d : WalStreamDecoder} {e : WalDecodeError} (haligned : d.misalignPad = 0)
    (hlength : d.collectPayload 4 = .error e) : Poll d d (.error e)
  | lengthMissing {d : WalStreamDecoder} (haligned : d.misalignPad = 0)
    (hlength : d.collectPayload 4 = .ok none) : Poll d d (.ok none)
  | pageMissing {d : WalStreamDecoder} {lenBytes : List UInt8} {raw : Nat} {recLsn : UInt64}
    (haligned : d.misalignPad = 0)
    (hlength : d.collectPayload 4 = .ok (some (lenBytes, raw, recLsn)))
    (hend : fromLeBytes lenBytes < SIZE_OF_XLOG_RECORD)
    (hshort : d.buf.length < d.pageSkip recLsn) : Poll d d (.ok none)
  | page {d d' : WalStreamDecoder} {r : Polled} {lenBytes : List UInt8} {raw : Nat}
    {recLsn : UInt64} (haligned : d.misalignPad = 0)
    (hlength : d.collectPayload 4 = .ok (some (lenBytes, raw, recLsn)))
    (hend : fromLeBytes lenBytes < SIZE_OF_XLOG_RECORD)
    (hlen : d.pageSkip recLsn ≤ d.buf.length) (rest : Poll (d.consume (d.pageSkip recLsn)) d' r) :
    Poll d d' r
  | recordBad {d : WalStreamDecoder} {lenBytes : List UInt8} {raw : Nat} {recLsn : UInt64}
    {e : WalDecodeError} (haligned : d.misalignPad = 0)
    (hlength : d.collectPayload 4 = .ok (some (lenBytes, raw, recLsn)))
    (hlong : SIZE_OF_XLOG_RECORD ≤ fromLeBytes lenBytes)
    (hrecord : d.collectPayload (fromLeBytes lenBytes) = .error e) : Poll d d (.error e)
  | recordMissing {d : WalStreamDecoder} {lenBytes : List UInt8} {raw : Nat} {recLsn : UInt64}
    (haligned : d.misalignPad = 0)
    (hlength : d.collectPayload 4 = .ok (some (lenBytes, raw, recLsn)))
    (hlong : SIZE_OF_XLOG_RECORD ≤ fromLeBytes lenBytes)
    (hrecord : d.collectPayload (fromLeBytes lenBytes) = .ok none) : Poll d d (.ok none)
  | record {d : WalStreamDecoder} {lenBytes record : List UInt8} {raw raw' : Nat}
    {recLsn recLsn' : UInt64} (haligned : d.misalignPad = 0)
    (hlength : d.collectPayload 4 = .ok (some (lenBytes, raw, recLsn)))
    (hlong : SIZE_OF_XLOG_RECORD ≤ fromLeBytes lenBytes)
    (hrecord : d.collectPayload (fromLeBytes lenBytes) = .ok (some (record, raw', recLsn'))) :
    Poll d (d.consume raw') (.ok (some (⟨recLsn'⟩, record)))

theorem misalignPad_consume (d : WalStreamDecoder) : (d.consume d.misalignPad).misalignPad = 0 := by
  have hlt := d.lsn.toNat_lt
  have hlsn : (d.consume d.misalignPad).lsn.toNat % 8 = 0 := by
    have hpos : (d.consume d.misalignPad).lsn.toNat = (d.lsn.toNat + d.misalignPad) % 2 ^ 64 := by
      simp [consume]
    rw [hpos]
    unfold misalignPad
    split <;> omega
  exact if_pos hlsn

/-- The padding is passed before anything else. -/
theorem pollDecode_pad {d : WalStreamDecoder} (hlen : d.misalignPad ≤ d.buf.length) :
    d.pollDecode = (d.consume d.misalignPad).pollDecode := by
  have hbuf : (d.consume d.misalignPad).buf.length ≤ d.buf.length := by
    rw [consume, List.length_drop]
    omega
  have hsame : pollLoop (d.buf.length + 1) d
      = pollLoop (d.buf.length + 1) (d.consume d.misalignPad) := by
    unfold pollLoop
    rw [if_neg (by omega), if_neg (by rw [misalignPad_consume]; omega), misalignPad_consume,
      consume_zero]
  unfold pollDecode
  rw [hsame]
  exact pollLoop_fuel (by omega) (by omega)

/-- A page without more WAL is passed before anything else. -/
theorem pollDecode_page {d : WalStreamDecoder} {lenBytes : List UInt8} {raw : Nat} {recLsn : UInt64}
    (haligned : d.misalignPad = 0)
    (hlength : d.collectPayload 4 = .ok (some (lenBytes, raw, recLsn)))
    (hend : fromLeBytes lenBytes < SIZE_OF_XLOG_RECORD)
    (hlen : d.pageSkip recLsn ≤ d.buf.length) :
    d.pollDecode = (d.consume (d.pageSkip recLsn)).pollDecode := by
  have hbuf := length_consume_pageSkip hlength hlen
  have hsame : pollLoop (d.buf.length + 1) d
      = pollLoop d.buf.length (d.consume (d.pageSkip recLsn)) := by
    rw [pollLoop, if_neg (by omega)]
    simp only [haligned, consume_zero, hlength]
    rw [if_pos hend, if_neg (by omega)]
  unfold pollDecode
  rw [hsame]
  exact pollLoop_fuel hbuf (by omega)

theorem Poll.eq {d d' : WalStreamDecoder} {r : Polled} (h : Poll d d' r) : d.pollDecode = (d', r) := by
  induction h with
  | padMissing hshort =>
    rw [pollDecode, pollLoop, if_pos hshort]
  | pad _ hlen _ ih =>
    rw [pollDecode_pad hlen, ih]
  | lengthBad haligned hlength =>
    rw [pollDecode, pollLoop, if_neg (by omega)]
    simp only [haligned, consume_zero, hlength]
  | lengthMissing haligned hlength =>
    rw [pollDecode, pollLoop, if_neg (by omega)]
    simp only [haligned, consume_zero, hlength]
  | pageMissing haligned hlength hend hshort =>
    rw [pollDecode, pollLoop, if_neg (by omega)]
    simp only [haligned, consume_zero, hlength]
    rw [if_pos hend, if_pos hshort]
  | page haligned hlength hend hlen _ ih =>
    rw [pollDecode_page haligned hlength hend hlen, ih]
  | recordBad haligned hlength hlong hrecord =>
    rw [pollDecode, pollLoop, if_neg (by omega)]
    simp only [haligned, consume_zero, hlength]
    rw [if_neg (by omega)]
    simp only [hrecord]
  | recordMissing haligned hlength hlong hrecord =>
    rw [pollDecode, pollLoop, if_neg (by omega)]
    simp only [haligned, consume_zero, hlength]
    rw [if_neg (by omega)]
    simp only [hrecord]
  | record haligned hlength hlong hrecord =>
    rw [pollDecode, pollLoop, if_neg (by omega)]
    simp only [haligned, consume_zero, hlength]
    rw [if_neg (by omega)]
    simp only [hrecord]

/-- From an aligned decoder every poll is one of the cases, if the polls from shorter
buffers are. -/
theorem exists_poll_aligned {d : WalStreamDecoder} (haligned : d.misalignPad = 0)
    (ih : ∀ d₁ : WalStreamDecoder, d₁.buf.length < d.buf.length → ∃ d' r, Poll d₁ d' r) :
    ∃ d' r, Poll d d' r := by
  cases hlength : d.collectPayload 4 with
  | error e => exact ⟨d, _, .lengthBad haligned hlength⟩
  | ok found =>
    rcases found with _ | ⟨lenBytes, raw, recLsn⟩
    · exact ⟨d, _, .lengthMissing haligned hlength⟩
    · by_cases hend : fromLeBytes lenBytes < SIZE_OF_XLOG_RECORD
      · by_cases hshort : d.buf.length < d.pageSkip recLsn
        · exact ⟨d, _, .pageMissing haligned hlength hend hshort⟩
        · have hlen : d.pageSkip recLsn ≤ d.buf.length := by omega
          obtain ⟨d', r, hrest⟩ := ih _ (length_consume_pageSkip hlength hlen)
          exact ⟨d', r, .page haligned hlength hend hlen hrest⟩
      · have hlong : SIZE_OF_XLOG_RECORD ≤ fromLeBytes lenBytes := by omega
        cases hrecord : d.collectPayload (fromLeBytes lenBytes) with
        | error e => exact ⟨d, _, .recordBad haligned hlength hlong hrecord⟩
        | ok found =>
          rcases found with _ | ⟨record, raw', recLsn'⟩
          · exact ⟨d, _, .recordMissing haligned hlength hlong hrecord⟩
          · exact ⟨_, _, .record haligned hlength hlong hrecord⟩

theorem exists_poll (d : WalStreamDecoder) : ∃ d' r, Poll d d' r := by
  induction hn : d.buf.length using Nat.strongRecOn generalizing d with
  | _ n ih =>
    have hrest : ∀ d₁ : WalStreamDecoder, d₁.buf.length < d.buf.length → ∃ d' r, Poll d₁ d' r :=
      fun d₁ hlt => ih d₁.buf.length (hn ▸ hlt) d₁ rfl
    by_cases hpad : d.misalignPad = 0
    · exact exists_poll_aligned hpad hrest
    · by_cases hshort : d.buf.length < d.misalignPad
      · exact ⟨d, _, .padMissing hshort⟩
      · have hlen : (d.consume d.misalignPad).buf.length ≤ d.buf.length := by
          rw [consume, List.length_drop]
          omega
        obtain ⟨d', r, h⟩ := exists_poll_aligned d.misalignPad_consume
          fun d₁ hlt => hrest d₁ (by omega)
        exact ⟨d', r, .pad hpad (by omega) h⟩

theorem poll_iff {d d' : WalStreamDecoder} {r : Polled} : Poll d d' r ↔ d.pollDecode = (d', r) := by
  refine ⟨Poll.eq, fun h => ?_⟩
  obtain ⟨d₁, r₁, hpoll⟩ := exists_poll d
  obtain ⟨rfl, rfl⟩ := Prod.mk.inj (hpoll.eq.symm.trans h)
  exact hpoll

/-! ## More bytes -/

variable (d : WalStreamDecoder) (c : List UInt8) {n : Nat}

@[simp] theorem feedBytes_lsn : (d.feedBytes c).lsn = d.lsn := rfl

@[simp] theorem feedBytes_buf : (d.feedBytes c).buf = d.buf ++ c := rfl

theorem feedBytes_nil : d.feedBytes [] = d := by
  unfold feedBytes
  rw [List.append_nil]

theorem feedBytes_append (c' : List UInt8) : d.feedBytes (c ++ c') = (d.feedBytes c).feedBytes c' := by
  unfold feedBytes
  rw [List.append_assoc]

theorem misalignPad_feedBytes : (d.feedBytes c).misalignPad = d.misalignPad := rfl

theorem pageSkip_feedBytes (recLsn : UInt64) :
    (d.feedBytes c).pageSkip recLsn = d.pageSkip recLsn := rfl

theorem consume_feedBytes (h : n ≤ d.buf.length) :
    (d.feedBytes c).consume n = (d.consume n).feedBytes c := by
  unfold feedBytes consume
  rw [List.drop_append_of_le_length h]

variable {d}

theorem drop_take_append {α : Type} {xs : List α} (ys : List α) {off k : Nat}
    (h : off + k ≤ xs.length) : ((xs ++ ys).drop off).take k = (xs.drop off).take k := by
  rw [List.drop_append_of_le_length (by omega), List.take_append_of_le_length (by
    rw [List.length_drop]
    omega)]

theorem checkPageHeader_feedBytes {off : Nat} (h : off + 2 ≤ d.buf.length) :
    (d.feedBytes c).checkPageHeader off = d.checkPageHeader off := by
  unfold checkPageHeader
  rw [feedBytes_buf, drop_take_append c h]
  rfl

theorem two_le_pageHeaderSize (d : WalStreamDecoder) (lsn : UInt64) : 2 ≤ d.pageHeaderSize lsn := by
  unfold pageHeaderSize
  split <;> decide

/-- A payload that is there, and a page header that is bad, stay so. -/
theorem collectLoop_feedBytes :
    ∀ {fuel : Nat} {out : List UInt8} {off : Nat} {lsn : UInt64} {first : Option UInt64},
      d.collectLoop n fuel out off lsn first ≠ .ok none →
      (d.feedBytes c).collectLoop n fuel out off lsn first
        = d.collectLoop n fuel out off lsn first := by
  intro fuel
  induction fuel with
  | zero => intro _ _ _ _ h; exact absurd rfl h
  | succ fuel ih =>
    intro out off lsn first h
    have hgrown : d.buf.length ≤ (d.feedBytes c).buf.length := by simp
    have hsize : (d.feedBytes c).pageHeaderSize lsn = d.pageHeaderSize lsn := rfl
    rw [collectLoop] at h ⊢
    rw [collectLoop]
    by_cases hdone : n ≤ out.length
    · rw [if_pos hdone, if_pos hdone]
    rw [if_neg hdone] at h
    rw [if_neg hdone, if_neg hdone]
    by_cases hpage : lsn.toNat % XLOG_BLCKSZ = 0
    · rw [if_pos hpage] at h
      rw [if_pos hpage, if_pos hpage]
      simp only [hsize] at h ⊢
      have htwo := d.two_le_pageHeaderSize lsn
      by_cases hshort : d.buf.length < off + d.pageHeaderSize lsn
      · exact absurd (if_pos hshort) h
      rw [if_neg hshort] at h
      rw [if_neg hshort, if_neg (by omega), checkPageHeader_feedBytes c (by omega)]
      cases hheader : d.checkPageHeader off with
      | error e => rfl
      | ok u =>
        rw [hheader] at h
        exact ih h
    · rw [if_neg hpage] at h
      rw [if_neg hpage, if_neg hpage]
      simp only at h ⊢
      by_cases hshort : d.buf.length
          < off + min (n - out.length) (XLOG_BLCKSZ - lsn.toNat % XLOG_BLCKSZ)
      · exact absurd (if_pos hshort) h
      rw [if_neg hshort] at h
      rw [if_neg hshort, if_neg (by omega), feedBytes_buf, drop_take_append c (by omega)]
      exact ih h

theorem collectPayload_feedBytes (h : d.collectPayload n ≠ .ok none) :
    (d.feedBytes c).collectPayload n = d.collectPayload n := by
  -- the fuel of the longer buffer is fuel enough for the shorter one
  have hfuel : d.collectPayload n
      = d.collectLoop n ((d.feedBytes c).buf.length + 1) [] 0 d.lsn none :=
    d.collectLoop_fuel n (Nat.zero_le _) (by omega) (by simp)
  rw [hfuel] at h ⊢
  exact collectLoop_feedBytes c h

theorem collectPayload_feedBytes_some {p : Payload} (h : d.collectPayload n = .ok (some p)) :
    (d.feedBytes c).collectPayload n = .ok (some p) := by
  rw [collectPayload_feedBytes c (by simp [h]), h]

theorem collectPayload_feedBytes_error {e : WalDecodeError} (h : d.collectPayload n = .error e) :
    (d.feedBytes c).collectPayload n = .error e := by
  rw [collectPayload_feedBytes c (by simp [h]), h]

namespace Poll

variable {d' : WalStreamDecoder} {r : Polled}

/-- A record or an error that is there is found with more bytes behind it as well. -/
theorem feedBytes_settled (h : Poll d d' r) (hsettled : r ≠ .ok none) :
    Poll (d.feedBytes c) (d'.feedBytes c) r := by
  induction h with
  | padMissing _ => exact absurd rfl hsettled
  | @pad d _ _ hpad hlen _ ih =>
    refine .pad hpad (by simp only [misalignPad_feedBytes, feedBytes_buf, List.length_append]; omega) ?_
    rw [misalignPad_feedBytes, consume_feedBytes d c hlen]
    exact ih hsettled
  | lengthBad haligned hlength => exact .lengthBad haligned (collectPayload_feedBytes_error c hlength)
  | lengthMissing _ _ => exact absurd rfl hsettled
  | pageMissing _ _ _ _ => exact absurd rfl hsettled
  | @page d _ _ _ _ recLsn haligned hlength hend hlen _ ih =>
    refine .page haligned (collectPayload_feedBytes_some c hlength) hend
      (by simp only [pageSkip_feedBytes, feedBytes_buf, List.length_append]; omega) ?_
    rw [pageSkip_feedBytes, consume_feedBytes d c hlen]
    exact ih hsettled
  | recordBad haligned hlength hlong hrecord =>
    exact .recordBad haligned (collectPayload_feedBytes_some c hlength) hlong
      (collectPayload_feedBytes_error c hrecord)
  | recordMissing _ _ _ _ => exact absurd rfl hsettled
  | @record d _ _ _ _ _ _ haligned hlength hlong hrecord =>
    rw [← consume_feedBytes d c ((collects_of_collectPayload hrecord).span (Nat.zero_le _)).2]
    exact .record haligned (collectPayload_feedBytes_some c hlength) hlong
      (collectPayload_feedBytes_some c hrecord)

/-- What a poll that ran dry has passed, a poll with more bytes passes first. -/
theorem feedBytes_none (h : Poll d d' r) (hnone : r = .ok none) {d₁ : WalStreamDecoder} {r₁ : Polled}
    (hnext : Poll (d'.feedBytes c) d₁ r₁) : Poll (d.feedBytes c) d₁ r₁ := by
  induction h with
  | padMissing _ => exact hnext
  | @pad d _ _ hpad hlen _ ih =>
    refine .pad hpad (by simp only [misalignPad_feedBytes, feedBytes_buf, List.length_append]; omega) ?_
    rw [misalignPad_feedBytes, consume_feedBytes d c hlen]
    exact ih hnone hnext
  | lengthBad _ _ => simp at hnone
  | lengthMissing _ _ => exact hnext
  | pageMissing _ _ _ _ => exact hnext
  | @page d _ _ _ _ recLsn haligned hlength hend hlen _ ih =>
    refine .page haligned (collectPayload_feedBytes_some c hlength) hend
      (by simp only [pageSkip_feedBytes, feedBytes_buf, List.length_append]; omega) ?_
    rw [pageSkip_feedBytes, consume_feedBytes d c hlen]
    exact ih hnone hnext
  | recordBad _ _ _ _ => simp at hnone
  | recordMissing _ _ _ _ => exact hnext
  | record _ _ _ _ => simp at hnone

end Poll

/-! ## Polling until nothing comes -/

/-- What polling to exhaustion comes to: the decoder it leaves, the records it handed out and
the error that stopped it, if one did. -/
structure Drained where
  decoder : WalStreamDecoder
  records : List (Lsn × List UInt8)
  error : Option WalDecodeError
deriving DecidableEq

/-- A record handed out before the others. -/
def Drained.cons (r : Lsn × List UInt8) (out : Drained) : Drained :=
  { out with records := r :: out.records }

/-- Poll until the decoder asks for more bytes, or fails. -/
def drainLoop : Nat → WalStreamDecoder → Drained
  | 0, d => ⟨d, [], none⟩
  | fuel + 1, d =>
    match d.pollDecode with
    | (d, .error e) => ⟨d, [], some e⟩
    | (d, .ok none) => ⟨d, [], none⟩
    | (d, .ok (some r)) => (drainLoop fuel d).cons r

def drain (d : WalStreamDecoder) : Drained := drainLoop (d.buf.length + 1) d

/-- Feed the next chunk and poll to exhaustion. The first error is the end. -/
def feedChunk (out : Drained) (chunk : List UInt8) : Drained :=
  match out.error with
  | some _ => out
  | none =>
    let next := (out.decoder.feedBytes chunk).drain
    { next with records := out.records ++ next.records }

/-- With fuel for every byte in the buffer polling ends by itself. -/
theorem drainLoop_fuel :
    ∀ {fuel fuel' : Nat} {d : WalStreamDecoder}, d.buf.length < fuel → d.buf.length < fuel' →
      drainLoop fuel d = drainLoop fuel' d := by
  intro fuel
  induction fuel with
  | zero => intro _ _ hfuel _; omega
  | succ fuel ih =>
    intro fuel' d hfuel hfuel'
    obtain ⟨fuel', rfl⟩ : ∃ k, fuel' = k + 1 := ⟨fuel' - 1, by omega⟩
    unfold drainLoop
    split
    · rfl
    · rfl
    · next d' r hpoll =>
      have hlen := pollLoop_shrinks hpoll
      exact congrArg (Drained.cons r) (ih (by omega) (by omega))

variable {d' : WalStreamDecoder}

theorem drain_error {e : WalDecodeError} (h : d.pollDecode = (d', .error e)) :
    d.drain = ⟨d', [], some e⟩ := by
  rw [drain, drainLoop, h]

theorem drain_none (h : d.pollDecode = (d', .ok none)) : d.drain = ⟨d', [], none⟩ := by
  rw [drain, drainLoop, h]

theorem drain_record {r : Lsn × List UInt8} (h : d.pollDecode = (d', .ok (some r))) :
    d.drain = d'.drain.cons r := by
  have hlen := pollLoop_shrinks h
  rw [drain, drainLoop, h]
  dsimp only
  rw [drainLoop_fuel hlen (Nat.lt_succ_self _), drain]

/-- Draining sees a decoder through its first poll. -/
theorem drain_congr {d₁ : WalStreamDecoder} (h : d.pollDecode = d₁.pollDecode) :
    d.drain = d₁.drain := by
  rcases hpoll : d₁.pollDecode with ⟨d', e | _ | r⟩
  · rw [drain_error hpoll, drain_error (h.trans hpoll)]
  · rw [drain_none hpoll, drain_none (h.trans hpoll)]
  · rw [drain_record hpoll, drain_record (h.trans hpoll)]

theorem drain_empty (hbuf : d.buf = []) : d.drain = ⟨d, [], none⟩ := by
  refine drain_none (Poll.eq ?_)
  by_cases hpad : d.misalignPad = 0
  · refine .lengthMissing hpad ?_
    have hpos := d.pageHeaderSize_pos d.lsn
    have hlt := Nat.mod_lt d.lsn.toNat (show 0 < XLOG_BLCKSZ by decide)
    rw [collectPayload, collectLoop, if_neg (by simp)]
    split
    · exact if_pos (by rw [hbuf, List.length_nil]; omega)
    · exact if_pos (by simp only [hbuf, List.length_nil]; omega)
  · exact .padMissing (by rw [hbuf, List.length_nil]; omega)

/-! ## Chunks -/

/-- The same records and the same error; and the same decoder, if there is no error. -/
structure Drained.Agrees (a b : Drained) : Prop where
  records : a.records = b.records
  error : a.error = b.error
  decoder : b.error = none → a.decoder = b.decoder

namespace Drained.Agrees

variable {x y z : Drained}

theorem refl (x : Drained) : x.Agrees x := ⟨rfl, rfl, fun _ => rfl⟩

theorem trans (h : x.Agrees y) (h' : y.Agrees z) : x.Agrees z where
  records := h.records.trans h'.records
  error := h.error.trans h'.error
  decoder hnone := (h.decoder (h'.error.trans hnone)).trans (h'.decoder hnone)

theorem cons (h : x.Agrees y) (r : Lsn × List UInt8) : (x.cons r).Agrees (y.cons r) where
  records := congrArg (r :: ·) h.records
  error := h.error
  decoder := h.decoder

/-- The next chunk takes agreeing results to agreeing results. -/
theorem feedChunk (h : x.Agrees y) (c : List UInt8) :
    (WalStreamDecoder.feedChunk x c).Agrees (WalStreamDecoder.feedChunk y c) := by
  unfold WalStreamDecoder.feedChunk
  cases herror : y.error with
  | some e =>
    rw [h.error, herror]
    exact h
  | none =>
    rw [h.error, herror, h.decoder herror, h.records]
    exact refl _

end Drained.Agrees

theorem feedChunk_cons (r : Lsn × List UInt8) (out : Drained) :
    feedChunk (out.cons r) c = (feedChunk out c).cons r := by
  obtain ⟨d, records, error⟩ := out
  cases error <;> rfl

/-- Bytes that were there when the decoder was drained last might as well have come with
the next chunk. -/
theorem feedChunk_drain (d : WalStreamDecoder) (c : List UInt8) :
    (feedChunk d.drain c).Agrees (d.feedBytes c).drain := by
  induction hn : d.buf.length using Nat.strongRecOn generalizing d with
  | _ n ih =>
    rcases hpoll : d.pollDecode with ⟨d', e | _ | r⟩
    · have hmore := ((poll_iff.mpr hpoll).feedBytes_settled c (by simp)).eq
      rw [drain_error hpoll, drain_error hmore]
      exact ⟨rfl, rfl, fun h => absurd h (by simp)⟩
    · obtain ⟨d₁, r₁, hnext⟩ := exists_poll (d'.feedBytes c)
      have hmore := (poll_iff.mpr hpoll).feedBytes_none c rfl hnext
      rw [drain_none hpoll, drain_congr (hmore.eq.trans hnext.eq.symm)]
      exact .refl _
    · have hmore := ((poll_iff.mpr hpoll).feedBytes_settled c (by simp)).eq
      have hlen := pollLoop_shrinks hpoll
      rw [drain_record hpoll, drain_record hmore, feedChunk_cons]
      exact (ih _ (hn ▸ hlen) d' rfl).cons r

theorem feedChunks_agrees (hbuf : d.buf = []) (chunks : List (List UInt8)) :
    (chunks.foldl feedChunk ⟨d, [], none⟩).Agrees (d.feedBytes chunks.flatten).drain := by
  induction chunks using List.reverseRecOn with
  | nil =>
    rw [List.flatten_nil, feedBytes_nil, drain_empty hbuf]
    exact .refl _
  | append_singleton chunks c ih =>
    rw [List.foldl_append, List.foldl_cons, List.foldl_nil, List.flatten_append,
      List.flatten_singleton, feedBytes_append]
    exact (ih.feedChunk c).trans (feedChunk_drain _ c)

end WalStreamDecoder

open WalStreamDecoder in
/-- **Framing does not depend on chunking.** From any start LSN, with or without the check of
page magics, and whatever the bytes are: polling to exhaustion after each chunk hands out the
records, and comes to the first error, of feeding everything at once; without an error it
leaves the same position and the same bytes. -/
theorem chunking_invisible (start : Lsn) (checkMagic : Bool) (chunks : List (List UInt8)) :
    let d : WalStreamDecoder := { WalStreamDecoder.new start with checkMagic }
    let chunked := chunks.foldl feedChunk ⟨d, [], none⟩
    let whole := (d.feedBytes chunks.flatten).drain
    chunked.records = whole.records ∧ chunked.error = whole.error ∧
      (whole.error = none → chunked.decoder.lsn = whole.decoder.lsn ∧
        chunked.decoder.buf = whole.decoder.buf) := by
  intro d chunked whole
  have h : chunked.Agrees whole := feedChunks_agrees rfl chunks
  refine ⟨h.records, h.error, fun hnone => ?_⟩
  rw [h.decoder hnone]
  exact ⟨rfl, rfl⟩

end AethelDB.Pageserver
