import AethelDB.Pageserver.WalredoProto

/-!
# The reference wal-redo process

`pageserver/src/bin/aethel-walredo-mock.rs`. Its `read_request` takes a request off standard input
in pieces, with lengths it finds in the pieces before, puts them together again and decodes the
whole. The two parsers agree about where a request ends (`takes_readRequest`).

The page it answers with is the base page with a few bytes overwritten, so it has the page size
(`wellFormed_answer`).
-/

namespace AethelDB.Pageserver.WalredoMock

open AethelDB.Lib AethelDB.Pageserver.WalredoProto

inductive IoError where
  | unexpectedEof
  | invalidData (e : ProtoError)
deriving DecidableEq

/-- The base image, if the flags announce one. -/
def readBase (flags : UInt8) : Reader UInt8 IoError (List UInt8) :=
  if flags &&& FLAG_HAS_BASE ≠ 0 then Reader.exactly PAGE_SIZE .unexpectedEof else pure []

/-- A record with its header of LSN and length. -/
def readRecord : Reader UInt8 IoError (List UInt8) := do
  let hdr ← Reader.exactly 12 .unexpectedEof
  let record ← Reader.exactly (UInt32.ofNat (fromBeBytes (field hdr 8 4))).toNat .unexpectedEof
  return hdr ++ record

/-- `read_request` from its header on. -/
def readFramed : Reader UInt8 IoError (Option RedoRequest) := do
  let buf ← Reader.exactly 28 .unexpectedEof
  let base ← readBase (buf.getD 5 0)
  let nbuf ← Reader.exactly 4 .unexpectedEof
  let records ← readRecord.times (UInt32.ofNat (fromBeBytes nbuf)).toNat
  match RedoRequest.decode (buf ++ (base ++ (nbuf ++ records.flatten))) with
  | .ok req => return some req
  | .error e => throw (.invalidData e)

/-- One framed request, or `none` when the input ends in or before the header. -/
def readRequest : Reader UInt8 IoError (Option RedoRequest) := fun input =>
  if input.length < 28 then .ok (none, []) else readFramed input

/-- `data` at an offset of the page, if it fits there. -/
def applyToyEdit (page : List UInt8) (off : Nat) (data : List UInt8) : List UInt8 :=
  if off + data.length ≤ page.length then copyAt page off data else page

/-- Big-endian edits `[offset:u16][len:u16][data]` applied to the page; `i` of the source is how
much of the record is gone. -/
def applyToyEdits (page record : List UInt8) : List UInt8 :=
  if _h : 4 ≤ record.length then
    let off := fromBeBytes (field record 0 2)
    let len := fromBeBytes (field record 2 2)
    let rest := record.drop 4
    if rest.length < len then page
    else applyToyEdits (applyToyEdit page off (rest.take len)) (rest.drop len)
  else page
termination_by record.length
decreasing_by
  simp only [List.length_drop]
  omega

/-- The answer to a request; `fail` is the flag `--fail`. -/
def answer (fail : Bool) (req : RedoRequest) : RedoResponse :=
  if fail then .error "forced failure (mock --fail)"
  else .page ((req.records.map Prod.snd).foldl applyToyEdits
    (req.baseImage.getD (List.replicate PAGE_SIZE 0)))

theorem length_applyToyEdit (page : List UInt8) (off : Nat) (data : List UInt8) :
    (applyToyEdit page off data).length = page.length := by
  unfold applyToyEdit
  split
  · next hfits => exact copyAt_length hfits
  · rfl

theorem length_applyToyEdits (page record : List UInt8) :
    (applyToyEdits page record).length = page.length := by
  fun_induction applyToyEdits page record with
  | case1 => rfl
  | case2 page record hlen off len rest hrest ih => rw [ih, length_applyToyEdit]
  | case3 => rfl

theorem wellFormed_answer (fail : Bool) {req : RedoRequest} (h : req.Fits) :
    (answer fail req).WellFormed := by
  have hbase : (req.baseImage.getD (List.replicate PAGE_SIZE 0)).length = PAGE_SIZE := by
    cases hreq : req.baseImage with
    | none => simp
    | some img => exact h.base img hreq
  cases fail with
  | true => simp [answer, RedoResponse.WellFormed, Text.utf8, String.utf8EncodeChar]
  | false =>
    have hfold : ∀ (records : List (List UInt8)) (page : List UInt8),
        (records.foldl applyToyEdits page).length = page.length := by
      intro records
      induction records with
      | nil => exact fun page => rfl
      | cons record records ih => exact fun page => (ih _).trans (length_applyToyEdits page record)
    exact (hfold _ _).trans hbase

/-! ## Where a request ends -/

section Takes

variable {r : RedoRequest}

theorem takes_readRecord {record : Lsn × List UInt8} (h : record.2.length < 2 ^ 32) :
    Takes readRecord (encodeRecord record) (encodeRecord record) := by
  have hlen : field (toBeBytes 8 record.1.raw.toNat ++ toBeBytes 4 record.2.length) 8 4
      = toBeBytes 4 record.2.length :=
    field_append_right (length_toBeBytes ..) (length_toBeBytes ..)
  unfold encodeRecord
  rw [← List.append_assoc]
  refine (takes_exactly (by simp) _).bind ?_
  rw [hlen, fromBeBytes_toBeBytes h]
  exact (takes_exactly (UInt32.toNat_ofNat_of_lt' h).symm _).bind_pure
    ((toBeBytes 8 record.1.raw.toNat ++ toBeBytes 4 record.2.length) ++ ·)

theorem flags_header (r : RedoRequest) :
    r.header.getD 5 0 = if r.baseImage.isSome then FLAG_HAS_BASE else 0 := rfl

theorem takes_readBase (h : r.Fits) :
    Takes (readBase (r.header.getD 5 0)) (r.baseImage.getD []) (r.baseImage.getD []) := by
  rw [flags_header, readBase, if_congr (RedoRequest.flag_eq r.baseImage.isSome) rfl rfl]
  cases hbase : r.baseImage with
  | none => exact Takes.pure []
  | some img => exact takes_exactly (h.base img hbase) _

theorem takes_readFramed (h : r.Fits) : Takes readFramed r.encode (some r) := by
  have htimes := Takes.times_map fun record hrecord => takes_readRecord (h.lengths record hrecord)
  unfold RedoRequest.encode
  refine (takes_exactly r.length_header _).bind ((takes_readBase h).bind ?_)
  refine (takes_exactly (length_toBeBytes ..) _).bind ?_
  rw [fromBeBytes_toBeBytes h.count, UInt32.toNat_ofNat_of_lt' h.count]
  intro rest
  rw [Reader.bind_of_ok _ (htimes rest)]
  -- the pieces are the encoding again
  have hpieces : (r.records.map encodeRecord).flatten = r.records.flatMap encodeRecord :=
    (List.flatMap_def ..).symm
  have hdecode := RedoRequest.decode_encode h
  unfold RedoRequest.encode at hdecode
  rw [hpieces, hdecode]
  rfl

/-- **A request is taken off the input as it was put there.** -/
theorem takes_readRequest (h : r.Fits) : Takes readRequest r.encode (some r) := by
  intro rest
  have hlen : ¬(r.encode ++ rest).length < 28 := by
    simp only [RedoRequest.encode, List.length_append, r.length_header]
    omega
  rw [readRequest, if_neg hlen]
  exact takes_readFramed h rest

end Takes

end AethelDB.Pageserver.WalredoMock
