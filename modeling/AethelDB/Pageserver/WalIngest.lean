import AethelDB.Pageserver.Framing
import AethelDB.Pageserver.Repository

/-!
# From WAL records to page versions

The WAL half of `pageserver/src/repository.rs`: `ingest_record` decodes one framed record
and files one version per block it touches, and `ingest_wal` frames a whole buffer and
ingests what comes out. The loop of `ingest_wal`, "poll the decoder and ingest until it
asks for more bytes", is also the last part of the WAL receiver's `poll_once`, so it is
one definition here (`ingestLoop`). It also keeps the list of records it handed to
`ingest_record`, which the source does not have and no branch depends on.

`Between` is the state of a decoder in the middle of a WAL stream, in terms of the records
it has handed out and those to come, and `ingestLoop_spec` is what the loop does to it.
Every record shortens the buffer, so its length is enough fuel (`ingestLoop_fuel`).
-/

namespace AethelDB.Pageserver

open AethelDB.Lib

/-- The version a block of a record becomes: its full-page image if that can be restored,
else the raw record. -/
def versionOfBlock (codecs : Codecs) (b : DecodedBlock) (raw : List UInt8) : PageVersion :=
  match b.image with
  | some img =>
    match img.restore codecs with
    | .ok page => .image page
    | .error _ => .walRecord ⟨b.willInit, raw⟩
  | none => .walRecord ⟨b.willInit, raw⟩

/-- Map a decoded WAL record to one `Modification` per touched block. -/
def modificationsFromRecord (codecs : Codecs) (decoded : DecodedWalRecord) (raw : List UInt8) :
    List Modification :=
  decoded.blocks.map fun b => ⟨b.rel, b.blkno, decoded.lsn, versionOfBlock codecs b raw⟩

/-- Decode one already-framed WAL record and ingest its per-page changes. A record that
does not decode leaves the repository as it is. -/
def Repository.ingestRecord (codecs : Codecs) (r : Repository) (lsn : Lsn) (record : List UInt8) :
    Except WalDecodeError Repository :=
  (decodeWalRecord lsn record).map fun decoded =>
    r.ingest (modificationsFromRecord codecs decoded record)

theorem Repository.decode_error_of_ingestRecord {codecs : Codecs} {r : Repository} {lsn : Lsn}
    {record : List UInt8} {e : WalDecodeError} (h : r.ingestRecord codecs lsn record = .error e) :
    decodeWalRecord lsn record = .error e := by
  unfold ingestRecord at h
  cases hdec : decodeWalRecord lsn record with
  | error e' =>
    rw [hdec] at h
    exact congrArg Except.error (Except.error.inj h)
  | ok decoded =>
    rw [hdec] at h
    simp [Except.map] at h

structure Ingested where
  decoder : WalStreamDecoder
  repo : Repository
  /-- The records handed to `ingest_record`, in order. -/
  handed : List (Lsn × List UInt8)
  /-- The number of records ingested, or why the loop gave up. -/
  result : Except WalDecodeError Nat

/-- Poll the decoder and ingest, until it asks for more bytes. -/
def ingestLoop (codecs : Codecs) :
    Nat → WalStreamDecoder → Repository → List (Lsn × List UInt8) → Nat → Ingested
  | 0, d, repo, handed, n => ⟨d, repo, handed, .ok n⟩
  | fuel + 1, d, repo, handed, n =>
    match d.pollDecode with
    | (d, .error e) => ⟨d, repo, handed, .error e⟩
    | (d, .ok none) => ⟨d, repo, handed, .ok n⟩
    | (d, .ok (some (lsn, record))) =>
      match repo.ingestRecord codecs lsn record with
      | .error e => ⟨d, repo, handed ++ [(lsn, record)], .error e⟩
      | .ok repo => ingestLoop codecs fuel d repo (handed ++ [(lsn, record)]) (n + 1)

/-- With fuel for every byte in the buffer the ingest loop ends by itself. -/
theorem ingestLoop_fuel (codecs : Codecs) :
    ∀ {fuel fuel' : Nat} {d : WalStreamDecoder} {repo : Repository}
      {handed : List (Lsn × List UInt8)} {n : Nat}, d.buf.length < fuel → d.buf.length < fuel' →
      ingestLoop codecs fuel d repo handed n = ingestLoop codecs fuel' d repo handed n := by
  intro fuel
  induction fuel with
  | zero => intro _ _ _ _ _ hfuel _; omega
  | succ fuel ih =>
    intro fuel' d repo handed n hfuel hfuel'
    obtain ⟨fuel', rfl⟩ : ∃ k, fuel' = k + 1 := ⟨fuel' - 1, by omega⟩
    unfold ingestLoop
    split
    · rfl
    · rfl
    · next d' lsn record hpoll =>
      have hlen := WalStreamDecoder.pollLoop_shrinks hpoll
      split
      · rfl
      · exact ih (by omega) (by omega)

def ingestAll (codecs : Codecs) (d : WalStreamDecoder) (repo : Repository) : Ingested :=
  ingestLoop codecs (d.buf.length + 1) d repo [] 0

/-- Ingest a raw WAL byte stream beginning at `startLsn`. -/
def Repository.ingestWal (codecs : Codecs) (r : Repository) (startLsn : Lsn) (wal : List UInt8) :
    Repository × Except WalDecodeError Nat :=
  let out := ingestAll codecs ((WalStreamDecoder.new startLsn).feedBytes wal) r
  (out.repo, out.result)

def Repository.ingestRecords (codecs : Codecs) (r : Repository) (records : List (Lsn × List UInt8)) :
    Except WalDecodeError Repository :=
  records.foldlM (fun r e => r.ingestRecord codecs e.1 e.2) r

theorem Repository.ingestRecords_append (codecs : Codecs) (r : Repository)
    (xs ys : List (Lsn × List UInt8)) :
    r.ingestRecords codecs (xs ++ ys)
      = (r.ingestRecords codecs xs).bind fun r' => r'.ingestRecords codecs ys := by
  unfold ingestRecords
  rw [List.foldlM_append]
  rfl

/-! ## A decoder between two records -/

/-- The decoder has handed out `done`, and its buffer goes on from there up to position
`upto`. -/
def Between (H : PageHeaders) (start : Nat) (done rest : List RecordImage) (d : WalStreamDecoder)
    (upto : Nat) : Prop :=
  ∃ pos, Reads H d pos rest ∧
    H.paging.Stands start (done.map RecordImage.bytes) (rest.map RecordImage.bytes) pos ∧
    pos + d.buf.length = upto

/-- The position just past `done`. -/
def PageHeaders.fin (H : PageHeaders) (start : Nat) (done : List RecordImage) : Nat :=
  H.paging.fin start (done.map RecordImage.bytes)

/-- How many of the records end at or before `upto`. -/
def PageHeaders.whole (H : PageHeaders) (start : Nat) (recs : List RecordImage) (upto : Nat) : Nat :=
  H.paging.whole start (recs.map RecordImage.bytes) upto

theorem PageHeaders.records_append (H : PageHeaders) (start : Nat) (done rest : List RecordImage) :
    H.records start (done ++ rest) = H.records start done ++ H.records (H.fin start done) rest := by
  rw [PageHeaders.records, List.map_append, Paging.items_append, List.map_append]
  rfl

/-- No record ends where the first one starts. -/
theorem PageHeaders.whole_start (H : PageHeaders) (start : Nat) (recs : List RecordImage) :
    H.whole start recs start = 0 := by
  cases recs with
  | nil => rfl
  | cons r recs =>
    have hheader := r.hasHeader
    have hsize : SIZE_OF_XLOG_RECORD = 24 := rfl
    have hlen := H.paging.length_le_lay (start + H.paging.pad start) r.bytes
    refine if_neg ?_
    rw [Paging.next, H.paging.length_entry]
    omega

namespace Between

variable {H : PageHeaders} {start upto : Nat} {done recs : List RecordImage} {r : RecordImage}
  {d : WalStreamDecoder}
variable {rest : List RecordImage}

theorem initial (H : PageHeaders) (start : Lsn) (recs : List RecordImage) :
    Between H start.raw.toNat [] recs (WalStreamDecoder.new start) start.raw.toNat :=
  ⟨start.raw.toNat, ⟨(UInt64.ofNat_toNat).symm, rfl, List.nil_prefix⟩, Or.inl rfl, rfl⟩

theorem fin_le (h : Between H start done rest d upto) : H.fin start done ≤ upto := by
  obtain ⟨pos, _, hstands, rfl⟩ := h
  exact hstands.fin_le.trans (Nat.le_add_right _ _)

theorem feed (h : Between H start done rest d upto) (k : Nat) :
    let payload := ((H.wal start (done ++ rest)).drop (upto - start)).take k
    Between H start done rest (d.feedBytes payload) (upto + payload.length) := by
  intro payload
  obtain ⟨pos, hreads, hstands, rfl⟩ := h
  have hstart : start ≤ pos := (H.paging.le_fin _ _).trans hstands.fin_le
  have hdrop : (H.wal start (done ++ rest)).drop (pos - start) = H.wal pos rest := by
    rw [PageHeaders.wal, List.map_append]
    exact hstands.drop_stream
  have hpayload : payload = ((H.wal pos rest).drop d.buf.length).take k := by
    show ((H.wal start (done ++ rest)).drop (pos + d.buf.length - start)).take k = _
    rw [← hdrop, List.drop_drop, show pos + d.buf.length - start = pos - start + d.buf.length by omega]
  have hbuf : d.buf = (H.wal pos rest).take d.buf.length := List.prefix_iff_eq_take.mp hreads.buf
  refine ⟨pos, ⟨hreads.lsn, hreads.seg, ?_⟩, hstands, ?_⟩
  · show d.buf ++ payload <+: H.wal pos rest
    rw [hpayload]
    nth_rewrite 1 [hbuf]
    rw [← List.take_add]
    exact List.take_prefix _ _
  · show pos + (d.buf ++ payload).length = _
    rw [List.length_append]
    omega

theorem poll_nil (h : Between H start done [] d upto) : d.pollDecode = (d, .ok none) := by
  obtain ⟨pos, hreads, _⟩ := h
  exact hreads.poll_nil

/-- The next record is complete: it is handed out. -/
theorem poll_whole (h : Between H start done (r :: recs) d upto)
    (hwhole : H.paging.next (H.fin start done) r.bytes ≤ upto) :
    ∃ d' lsn, d.pollDecode = (d', .ok (some (lsn, r.bytes))) ∧
      H.records start (done ++ [r]) = H.records start done ++ [(lsn, r.bytes)] ∧
      Between H start (done ++ [r]) recs d' upto ∧ d'.buf.length < d.buf.length := by
  obtain ⟨pos, hreads, hstands, rfl⟩ := h
  have hnext : H.paging.next pos r.bytes = H.paging.next (H.fin start done) r.bytes :=
    hstands.next_eq
  have hpoll := hreads.poll_cons
  rw [if_pos (hnext.trans_le hwhole)] at hpoll
  have hlen : r.bytes.length ≤ (H.paging.entry pos r.bytes).length := by
    rw [H.paging.length_entry]
    exact (H.paging.length_le_lay _ _).trans (Nat.le_add_left _ _)
  have hheader := r.hasHeader
  have hsize : SIZE_OF_XLOG_RECORD = 24 := rfl
  have hfits : (H.paging.entry pos r.bytes).length ≤ d.buf.length := by
    rw [← hnext, Paging.next] at hwhole
    omega
  refine ⟨_, _, hpoll, ?_, ⟨_, hreads.consume_entry, ?_, ?_⟩, ?_⟩
  · have hfirst := hstands.first_eq
    rw [H.records_append, hfirst]
    rfl
  · rw [List.map_append]
    exact hstands.pass_item
  · show H.paging.next pos r.bytes + (d.buf.drop _).length = _
    rw [List.length_drop, Paging.next]
    omega
  · show (d.buf.drop _).length < _
    rw [List.length_drop]
    omega

/-- The next record is not complete: nothing is handed out. -/
theorem poll_part (h : Between H start done (r :: recs) d upto)
    (hpart : upto < H.paging.next (H.fin start done) r.bytes) :
    ∃ d', d.pollDecode = (d', .ok none) ∧ Between H start done (r :: recs) d' upto := by
  obtain ⟨pos, hreads, hstands, rfl⟩ := h
  have hnext : H.paging.next pos r.bytes = H.paging.next (H.fin start done) r.bytes :=
    hstands.next_eq
  have hpoll := hreads.poll_cons
  rw [if_neg (by omega)] at hpoll
  rcases hpoll with hpoll | ⟨hpad, hpoll⟩
  · exact ⟨d, hpoll, pos, hreads, hstands, rfl⟩
  · refine ⟨_, hpoll, _, hreads.consume_pad, hstands.pass_gap, ?_⟩
    show pos + H.paging.pad pos + (d.buf.drop _).length = _
    rw [List.length_drop]
    omega

/-- The complete records are those handed out and those that are still to be. -/
theorem whole_eq (h : Between H start done rest d upto) :
    H.whole start (done ++ rest) upto = done.length + H.whole (H.fin start done) rest upto := by
  have happ := H.paging.whole_append (rest.map RecordImage.bytes) h.fin_le
  rw [List.length_map] at happ
  rw [PageHeaders.whole, List.map_append]
  exact happ

/-- When the next record is not complete, what has been handed out is every complete
record. -/
theorem take_whole (h : Between H start done rest d upto)
    (hnone : H.whole (H.fin start done) rest upto = 0) :
    (done ++ rest).take (H.whole start (done ++ rest) upto) = done := by
  rw [h.whole_eq, hnone, Nat.add_zero, List.take_left]

/-- What has been handed out are records of the stream up to `upto`. -/
theorem records_subset (h : Between H start done rest d upto) :
    H.records start done
      ⊆ H.records start ((done ++ rest).take (H.whole start (done ++ rest) upto)) := by
  rw [h.whole_eq, List.take_length_add_append, H.records_append]
  exact List.subset_append_left _ _

end Between

/-! ## The ingest loop -/

/-- What the loop has done when it started behind `done`: it handed out `new`, and if it did
not give up, these are all the complete records and all are ingested. -/
structure LoopSpec (H : PageHeaders) (codecs : Codecs) (start upto : Nat) (recs done : List RecordImage)
    (repo : Repository) (handed : List (Lsn × List UInt8)) (n : Nat) (out : Ingested) : Prop where
  exists_new : ∃ done' rest' new, recs = done' ++ rest' ∧
    Between H start done' rest' out.decoder upto ∧
    H.records start done' = H.records start done ++ new ∧ out.handed = handed ++ new ∧
    ∀ k, out.result = .ok k → H.whole (H.fin start done') rest' upto = 0 ∧
      repo.ingestRecords codecs new = .ok out.repo ∧ k = n + new.length
  error : ∀ e, out.result = .error e → ∃ r ∈ recs, ∃ lsn, decodeWalRecord lsn r.bytes = .error e

theorem ingestLoop_spec {H : PageHeaders} (codecs : Codecs) {start upto : Nat}
    {recs : List RecordImage} :
    ∀ {rest done : List RecordImage} {fuel : Nat} {d : WalStreamDecoder} (repo : Repository)
      (handed : List (Lsn × List UInt8)) (n : Nat), recs = done ++ rest →
      Between H start done rest d upto → d.buf.length < fuel →
      LoopSpec H codecs start upto recs done repo handed n (ingestLoop codecs fuel d repo handed n) := by
  -- the loop takes the records in order, so the induction is over those that are left
  intro rest
  induction rest with
  | nil =>
    intro done fuel d repo handed n hrecs h hfuel
    obtain ⟨fuel, rfl⟩ : ∃ k, fuel = k + 1 := ⟨fuel - 1, by omega⟩
    simp only [ingestLoop, h.poll_nil]
    refine ⟨⟨done, [], [], hrecs, h, ?_, ?_, ?_⟩, ?_⟩
    · rw [List.append_nil]
    · rw [List.append_nil]
    · rintro k hk
      exact ⟨rfl, rfl, (Except.ok.inj hk).symm⟩
    · intro e he
      simp at he
  | cons r rest ih =>
    intro done fuel d repo handed n hrecs h hfuel
    obtain ⟨fuel, rfl⟩ : ∃ k, fuel = k + 1 := ⟨fuel - 1, by omega⟩
    by_cases hwhole : H.paging.next (H.fin start done) r.bytes ≤ upto
    · obtain ⟨d', lsn, hpoll, hrecords, h', hlen⟩ := h.poll_whole hwhole
      have hrecs' : recs = done ++ [r] ++ rest := by
        rw [hrecs, List.append_assoc, List.singleton_append]
      cases hrec : repo.ingestRecord codecs lsn r.bytes with
      | error e =>
        simp only [ingestLoop, hpoll, hrec]
        refine ⟨⟨done ++ [r], rest, [(lsn, r.bytes)], hrecs', h', hrecords, rfl, ?_⟩, ?_⟩
        · intro k hk
          simp at hk
        · intro e' he'
          refine ⟨r, by rw [hrecs]; simp, lsn, ?_⟩
          rw [← Except.error.inj he']
          exact Repository.decode_error_of_ingestRecord hrec
      | ok repo' =>
        obtain ⟨⟨done', rest', new, hsplit, hbetween, hnew, hhanded, hok⟩, herr⟩ :=
          ih repo' (handed ++ [(lsn, r.bytes)]) (n + 1) hrecs' h'
            (show d'.buf.length < fuel by omega)
        simp only [ingestLoop, hpoll, hrec]
        refine ⟨⟨done', rest', (lsn, r.bytes) :: new, hsplit, hbetween, ?_, ?_, ?_⟩, herr⟩
        · rw [hnew, hrecords, List.append_assoc, List.singleton_append]
        · rw [hhanded, List.append_assoc, List.singleton_append]
        · intro k hk
          obtain ⟨hnone, hingest, rfl⟩ := hok k hk
          refine ⟨hnone, ?_, by rw [List.length_cons]; omega⟩
          rw [Repository.ingestRecords, List.foldlM_cons, hrec]
          exact hingest
    · obtain ⟨d', hpoll, h'⟩ := h.poll_part (by omega)
      simp only [ingestLoop, hpoll]
      refine ⟨⟨done, r :: rest, [], hrecs, h', ?_, ?_, ?_⟩, ?_⟩
      · rw [List.append_nil]
      · rw [List.append_nil]
      · intro k hk
        refine ⟨?_, rfl, (Except.ok.inj hk).symm⟩
        exact if_neg hwhole
      · intro e he
        simp at he

theorem ingestAll_spec {H : PageHeaders} (codecs : Codecs) {start upto : Nat}
    {recs done rest : List RecordImage} {d : WalStreamDecoder} (repo : Repository)
    (hrecs : recs = done ++ rest) (h : Between H start done rest d upto) :
    LoopSpec H codecs start upto recs done repo [] 0 (ingestAll codecs d repo) :=
  ingestLoop_spec codecs repo [] 0 hrecs h (Nat.lt_succ_self _)

end AethelDB.Pageserver
