import AethelDB.Lib.Paged
import AethelDB.Pageserver.Waldecode

/-!
# WAL framing is exact

WAL as PostgreSQL 16 writes it: each record image at the next multiple of 8, zeros in
the gap before it, and a page header at every page boundary, also in the middle of a
record. `PageHeaders.wal` lays out a list of record images that way, as the pages of
`Lib.Paging`.

`Reads` says that a decoder stands at a position of such a stream with some beginning
of the rest in its buffer. `Reads.poll` is what one poll then does: it takes the next
record if that has arrived completely, and says that it needs more bytes if not.
Nothing here depends on where the stream is cut, so the same lemma serves a stream
that arrives in chunks.
-/

namespace AethelDB.Pageserver

open AethelDB.Lib

/-- A page header for every position: long at segment boundaries and short elsewhere,
with the magic of PostgreSQL 16. -/
structure PageHeaders where
  header : Nat → List UInt8
  size : ∀ pos, (header pos).length =
    if pos % DEFAULT_WAL_SEG_SIZE.toNat = 0 then SIZE_OF_XLOG_LONG_PHD else SIZE_OF_XLOG_SHORT_PHD
  magic : ∀ pos, (header pos).take 2 = [0x13, 0xD1]

/-- A record image: it has a record header, which starts with the image's length. -/
structure RecordImage where
  bytes : List UInt8
  hasHeader : SIZE_OF_XLOG_RECORD ≤ bytes.length
  totLen : fromLeBytes (bytes.take 4) = bytes.length

namespace PageHeaders

variable (H : PageHeaders)

theorem header_pos (pos : Nat) : 0 < (H.header pos).length := by
  rw [H.size]
  split <;> decide

theorem header_lt (pos : Nat) : (H.header pos).length < XLOG_BLCKSZ := by
  rw [H.size]
  split <;> decide

theorem maxalign_pos : 0 < 8 := Nat.zero_lt_succ 7

theorem maxalign_dvd : 8 ∣ XLOG_BLCKSZ := by decide

def paging : Paging UInt8 where
  pageSize := XLOG_BLCKSZ
  header := H.header
  align := 8
  fill := 0
  header_pos := H.header_pos
  header_lt := H.header_lt
  align_pos := maxalign_pos
  align_dvd := maxalign_dvd

/-- The records laid out as WAL from position `pos` on. -/
def wal (pos : Nat) (recs : List RecordImage) : List UInt8 :=
  H.paging.stream pos (recs.map RecordImage.bytes)

/-- The records as a decoder hands them out: with the LSN of the first byte. -/
def records (pos : Nat) (recs : List RecordImage) : List (Lsn × List UInt8) :=
  (H.paging.items pos (recs.map RecordImage.bytes)).map fun e => (⟨UInt64.ofNat e.1⟩, e.2)

end PageHeaders

/-! ## Positions as LSNs -/

theorem toNat_ofNat_mod_page (pos : Nat) :
    (UInt64.ofNat pos).toNat % XLOG_BLCKSZ = pos % XLOG_BLCKSZ := by
  rw [UInt64.toNat_ofNat']
  simp only [XLOG_BLCKSZ, PAGE_SIZE]
  omega

theorem toNat_ofNat_mod_align (pos : Nat) : (UInt64.ofNat pos).toNat % 8 = pos % 8 := by
  rw [UInt64.toNat_ofNat']
  omega

namespace WalStreamDecoder

variable {d : WalStreamDecoder}

theorem pageHeaderSize_eq (hseg : d.walSegSize = DEFAULT_WAL_SEG_SIZE) (H : PageHeaders)
    (pos : Nat) : d.pageHeaderSize (UInt64.ofNat pos) = (H.header pos).length := by
  have hiff : UInt64.ofNat pos % DEFAULT_WAL_SEG_SIZE = 0
      ↔ pos % DEFAULT_WAL_SEG_SIZE.toNat = 0 := by
    have hsize : DEFAULT_WAL_SEG_SIZE.toNat = 16777216 := rfl
    have hzero : (0 : UInt64).toNat = 0 := rfl
    rw [← UInt64.toNat_inj, UInt64.toNat_mod, UInt64.toNat_ofNat', hsize, hzero]
    omega
  rw [pageHeaderSize, hseg, H.size]
  exact if_congr hiff rfl rfl

theorem consume_zero (d : WalStreamDecoder) : d.consume 0 = d := by
  unfold consume
  simp

theorem consume_consume (d : WalStreamDecoder) (m n : Nat) :
    (d.consume m).consume n = d.consume (m + n) := by
  unfold consume
  simp only [List.drop_drop, UInt64.ofNat_add, UInt64.add_assoc]

/-! ## Collecting a payload -/

variable {off pos : Nat} {rest : List UInt8}

theorem take_eq_of_isPrefix {α : Type} {a b : List α} (h : a <+: b) {k : Nat} (hk : k ≤ a.length) :
    a.take k = b.take k := by
  obtain ⟨t, rfl⟩ := h
  rw [List.take_append_of_le_length hk]

/-- Having read `xs`, the buffer goes on with what comes behind it. -/
theorem drop_isPrefix {α : Type} {buf xs rest : List α} (h : buf.drop off <+: xs ++ rest) :
    buf.drop (off + xs.length) <+: rest := by
  have hd := h.drop xs.length
  rw [List.drop_drop, List.drop_left] at hd
  exact hd

theorem checkPageHeader_ok {H : PageHeaders} (hbuf : d.buf.drop off <+: H.header pos ++ rest)
    (hlen : (H.header pos).length ≤ (d.buf.drop off).length) : d.checkPageHeader off = .ok () := by
  have htwo : 2 ≤ (H.header pos).length := by
    rw [H.size]
    split <;> decide
  have hmagic : (d.buf.drop off).take 2 = [0x13, 0xD1] := by
    rw [take_eq_of_isPrefix hbuf (htwo.trans hlen), List.take_append_of_le_length htwo, H.magic]
  unfold checkPageHeader
  rw [hmagic]
  exact if_neg (fun h => h.2 (by decide))

/-- A round at the start of a page takes its header. -/
theorem collectLoop_header (hseg : d.walSegSize = DEFAULT_WAL_SEG_SIZE) {H : PageHeaders}
    {n fuel : Nat} {out : List UInt8} {first : Option UInt64} (hpage : pos % XLOG_BLCKSZ = 0)
    (hmore : out.length < n) (hoff : off ≤ d.buf.length)
    (hbuf : d.buf.drop off <+: H.header pos ++ rest) :
    d.collectLoop n (fuel + 1) out off (UInt64.ofNat pos) first =
      if off + (H.header pos).length ≤ d.buf.length then
        d.collectLoop n fuel out (off + (H.header pos).length)
          (UInt64.ofNat (pos + (H.header pos).length)) first
      else .ok none := by
  rw [collectLoop, toNat_ofNat_mod_page, if_neg (by omega), if_pos hpage]
  simp only [pageHeaderSize_eq hseg H pos]
  split
  · next hshort => rw [if_neg (by omega)]
  · next hfits =>
    have hlen : (H.header pos).length ≤ (d.buf.drop off).length := by
      rw [List.length_drop]
      omega
    rw [if_pos (by omega), checkPageHeader_ok hbuf hlen, UInt64.ofNat_add]

/-- A round inside a page takes as much of the payload as the page still has. -/
theorem collectLoop_inside {n fuel : Nat} {out xs : List UInt8} {first : Option UInt64}
    (hpage : pos % XLOG_BLCKSZ ≠ 0) (hn : out.length + xs.length = n) (hne : xs ≠ [])
    (hoff : off ≤ d.buf.length) {want : Nat}
    (hwant : min xs.length (XLOG_BLCKSZ - pos % XLOG_BLCKSZ) = want)
    (hbuf : d.buf.drop off <+: xs.take want ++ rest) :
    d.collectLoop n (fuel + 1) out off (UInt64.ofNat pos) first =
      if off + want ≤ d.buf.length then
        d.collectLoop n fuel (out ++ xs.take want) (off + want) (UInt64.ofNat (pos + want))
          (some (first.getD (UInt64.ofNat pos)))
      else .ok none := by
  have hpos : 0 < xs.length := List.length_pos_iff.mpr hne
  have hdrop : (d.buf.drop off).length = d.buf.length - off := List.length_drop
  have htake : (xs.take want).length = want := by
    rw [List.length_take]
    omega
  rw [collectLoop, toNat_ofNat_mod_page, if_neg (by omega), if_neg hpage]
  simp only [show n - out.length = xs.length by omega, hwant]
  split
  · next hshort => rw [if_neg (by omega)]
  · next hfits =>
    have hgot : (d.buf.drop off).take want = xs.take want := by
      rw [take_eq_of_isPrefix hbuf (by omega), List.take_append_of_le_length (by omega),
        List.take_of_length_le (by omega)]
    rw [if_pos (by omega), hgot, UInt64.ofNat_add]

/-- **The payload loop undoes the layout.** With `xs` still to collect and laid out at
the loop's position, it returns `xs` if all of its layout is in the buffer. -/
theorem collectLoop_eq (hseg : d.walSegSize = DEFAULT_WAL_SEG_SIZE) (H : PageHeaders) {n : Nat}
    {tail : List UInt8} :
    ∀ {fuel : Nat} {out xs : List UInt8} {off pos : Nat} {first : Option UInt64},
      off ≤ d.buf.length → d.buf.length < off + fuel → out.length + xs.length = n →
      d.buf.drop off <+: H.paging.lay pos xs ++ tail →
      d.collectLoop n fuel out off (UInt64.ofNat pos) first =
        .ok (if off + (H.paging.lay pos xs).length ≤ d.buf.length then
          some (out ++ xs, off + (H.paging.lay pos xs).length,
            first.getD (UInt64.ofNat (if xs = [] then pos else H.paging.first pos)))
        else none) := by
  intro fuel
  induction fuel with
  | zero => intro _ _ _ _ _ hoff hfuel _ _; omega
  | succ fuel ih =>
    intro out xs off pos first hoff hfuel hn hbuf
    by_cases hnil : xs = []
    · subst hnil
      rw [List.length_nil, Nat.add_zero] at hn
      unfold collectLoop
      simp only [Paging.lay_nil, List.length_nil, Nat.add_zero, List.append_nil, if_pos hn.ge,
        if_pos hoff, if_true]
    · have hpos : 0 < xs.length := List.length_pos_iff.mpr hnil
      rw [if_neg hnil]
      by_cases hpage : pos % XLOG_BLCKSZ = 0
      · have hlay : H.paging.lay pos xs
            = H.header pos ++ H.paging.lay (pos + (H.header pos).length) xs :=
          H.paging.lay_of_boundary hpage hnil
        have hfirst : H.paging.first (pos + (H.header pos).length) = H.paging.first pos :=
          (H.paging.first_of_inside (H.paging.inside_of_header hpage)).trans
            (H.paging.first_of_boundary hpage).symm
        have hheader := H.header_pos pos
        rw [hlay, List.append_assoc] at hbuf
        rw [collectLoop_header hseg hpage (by omega) hoff hbuf, hlay, List.length_append]
        split
        · next hfits =>
          rw [ih hfits (by omega) hn (drop_isPrefix hbuf), if_neg hnil, hfirst, Nat.add_assoc]
        · next hshort => rw [if_neg (by omega)]
      · obtain ⟨want, hwant⟩ :
            ∃ w, min xs.length (XLOG_BLCKSZ - pos % XLOG_BLCKSZ) = w := ⟨_, rfl⟩
        have hlt := Nat.mod_lt pos (show 0 < XLOG_BLCKSZ by decide)
        have hlay := H.paging.lay_take hpage (show want ≤ xs.length by omega)
          (show want ≤ XLOG_BLCKSZ - pos % XLOG_BLCKSZ by omega)
        have htake : (xs.take want).length = want := by
          rw [List.length_take]
          omega
        rw [hlay, List.append_assoc] at hbuf
        rw [collectLoop_inside hpage hn hnil hoff hwant hbuf, hlay, List.length_append, htake]
        split
        · next hfits =>
          have hn' : (out ++ xs.take want).length + (xs.drop want).length = n := by
            rw [List.length_append, htake, List.length_drop]
            omega
          have hrest := drop_isPrefix hbuf
          rw [htake] at hrest
          rw [ih hfits (by omega) hn' hrest, H.paging.first_of_inside hpage, List.append_assoc,
            List.take_append_drop, Option.getD_some, Nat.add_assoc]
        · next hshort => rw [if_neg (by omega)]

/-- Collecting a payload that is laid out where the decoder stands. -/
theorem collectPayload_eq (hseg : d.walSegSize = DEFAULT_WAL_SEG_SIZE) (H : PageHeaders)
    (hlsn : d.lsn = UInt64.ofNat pos) {xs tail : List UInt8} (hne : xs ≠ [])
    (hbuf : d.buf <+: H.paging.lay pos xs ++ tail) :
    d.collectPayload xs.length =
      .ok (if (H.paging.lay pos xs).length ≤ d.buf.length then
        some (xs, (H.paging.lay pos xs).length, UInt64.ofNat (H.paging.first pos))
      else none) := by
  have hn : ([] : List UInt8).length + xs.length = xs.length := by
    rw [List.length_nil, Nat.zero_add]
  have hbuf : d.buf.drop 0 <+: H.paging.lay pos xs ++ tail := hbuf
  rw [collectPayload, hlsn, collectLoop_eq hseg H (Nat.zero_le _) (by omega) hn hbuf,
    Nat.zero_add, List.nil_append, if_neg hne, Option.getD_none]

end WalStreamDecoder

/-! ## Polling -/

/-- The decoder stands at position `pos` of a stream that goes on with `recs`, and has
a beginning of it in its buffer. -/
structure Reads (H : PageHeaders) (d : WalStreamDecoder) (pos : Nat) (recs : List RecordImage) :
    Prop where
  lsn : d.lsn = UInt64.ofNat pos
  seg : d.walSegSize = DEFAULT_WAL_SEG_SIZE
  buf : d.buf <+: H.wal pos recs

namespace Reads

open WalStreamDecoder

variable {H : PageHeaders} {d : WalStreamDecoder} {pos : Nat}
variable {recs : List RecordImage} {r : RecordImage}

theorem misalignPad_eq (hlsn : d.lsn = UInt64.ofNat pos) : d.misalignPad = H.paging.pad pos := by
  have halign : H.paging.align = 8 := rfl
  unfold misalignPad
  rw [hlsn, toNat_ofNat_mod_align]
  split
  · next h => exact (H.paging.pad_of_aligned h).symm
  · next h => rw [H.paging.pad_of_unaligned h, halign]

theorem consume {recs' : List RecordImage} {front : List UInt8} (h : Reads H d pos recs)
    (hwal : H.wal pos recs = front ++ H.wal (pos + front.length) recs') :
    Reads H (d.consume front.length) (pos + front.length) recs' where
  lsn := by
    show d.lsn + UInt64.ofNat front.length = _
    rw [h.lsn, ← UInt64.ofNat_add]
  seg := h.seg
  buf := by
    have hbuf : d.buf.drop 0 <+: front ++ H.wal (pos + front.length) recs' := hwal ▸ h.buf
    have hd := drop_isPrefix hbuf
    rw [Nat.zero_add] at hd
    exact hd

/-- No record is left: nothing more comes. -/
theorem poll_nil (h : Reads H d pos []) : d.pollDecode = (d, .ok none) := by
  have hnil : d.buf = [] := List.prefix_nil.mp h.buf
  unfold pollDecode pollLoop
  rw [hnil, List.length_nil]
  split
  · rfl
  · next hpad =>
    rw [Nat.pos_iff_ne_zero, not_not] at hpad
    -- four payload bytes take at least four raw ones
    have hempty : d.buf <+: H.paging.lay pos (List.replicate 4 0) ++ [] := by
      rw [hnil]
      exact List.nil_prefix
    have hcollect := collectPayload_eq h.seg H h.lsn (by decide) hempty
    have hfour := H.paging.length_le_lay pos (List.replicate 4 0)
    rw [List.length_replicate] at hcollect hfour
    rw [hnil, List.length_nil, if_neg (by omega)] at hcollect
    simp only [hpad, consume_zero, hcollect]

theorem consume_pad (h : Reads H d pos (r :: recs)) :
    Reads H (d.consume (H.paging.pad pos)) (pos + H.paging.pad pos) (r :: recs) := by
  obtain ⟨gap, hgap⟩ : ∃ gap : List UInt8, List.replicate (H.paging.pad pos) 0 = gap := ⟨_, rfl⟩
  have hlen : gap.length = H.paging.pad pos := by rw [← hgap, List.length_replicate]
  have hwal : H.wal pos (r :: recs) = gap ++ H.wal (pos + gap.length) (r :: recs) := by
    rw [hlen, ← hgap]
    exact H.paging.stream_of_pad pos r.bytes (recs.map RecordImage.bytes)
  have hmoved := h.consume hwal
  rw [hlen] at hmoved
  exact hmoved

/-- At an aligned position, the length of the next record and the record itself are
collected as far as they have arrived. -/
theorem collect_record (h : Reads H d pos (r :: recs)) (haligned : H.paging.pad pos = 0) :
    (d.collectPayload 4 = .ok (if (H.paging.lay pos (r.bytes.take 4)).length ≤ d.buf.length then
        some (r.bytes.take 4, (H.paging.lay pos (r.bytes.take 4)).length,
          UInt64.ofNat (H.paging.first pos)) else none)) ∧
      d.collectPayload r.bytes.length =
        .ok (if (H.paging.lay pos r.bytes).length ≤ d.buf.length then
          some (r.bytes, (H.paging.lay pos r.bytes).length, UInt64.ofNat (H.paging.first pos))
        else none) := by
  have hheader := r.hasHeader
  have hsize : SIZE_OF_XLOG_RECORD = 24 := rfl
  have hbuf : d.buf <+: H.paging.lay pos r.bytes ++ H.wal (H.paging.next pos r.bytes) recs := by
    have hb := h.buf
    rw [PageHeaders.wal, List.map_cons, Paging.stream, H.paging.entry_of_aligned haligned] at hb
    exact hb
  have hfour : (r.bytes.take 4).length = 4 := by
    rw [List.length_take]
    omega
  have hsplit := H.paging.lay_append pos (r.bytes.take 4) (r.bytes.drop 4)
  rw [List.take_append_drop] at hsplit
  refine ⟨?_, ?_⟩
  · have hne : r.bytes.take 4 ≠ [] := List.ne_nil_of_length_pos (by omega)
    rw [hsplit, List.append_assoc] at hbuf
    have hcollect := collectPayload_eq h.seg H h.lsn hne hbuf
    rw [hfour] at hcollect
    exact hcollect
  · have hne : r.bytes ≠ [] := List.ne_nil_of_length_pos (by omega)
    exact collectPayload_eq h.seg H h.lsn hne hbuf

/-- **One poll takes the next record if all of it has arrived.** If not, at most the gap
before it is passed. -/
theorem poll_cons (h : Reads H d pos (r :: recs)) :
    if H.paging.next pos r.bytes ≤ pos + d.buf.length then
      d.pollDecode = (d.consume (H.paging.entry pos r.bytes).length,
        .ok (some (⟨UInt64.ofNat (H.paging.first (pos + H.paging.pad pos))⟩, r.bytes)))
    else
      d.pollDecode = (d, .ok none) ∨
        H.paging.pad pos ≤ d.buf.length ∧
          d.pollDecode = (d.consume (H.paging.pad pos), .ok none) := by
  have hheader := r.hasHeader
  rw [Paging.next, H.paging.length_entry]
  unfold pollDecode pollLoop
  rw [misalignPad_eq (H := H) h.lsn]
  by_cases hshort : d.buf.length < H.paging.pad pos
  · rw [if_neg (by omega), if_pos hshort]
    exact Or.inl rfl
  · obtain ⟨hlength, hrecord⟩ := h.consume_pad.collect_record (H.paging.pad_add_pad pos)
    rw [if_neg hshort]
    simp only
    obtain ⟨d', hd'⟩ : ∃ d', d.consume (H.paging.pad pos) = d' := ⟨_, rfl⟩
    have hlen : d'.buf.length = d.buf.length - H.paging.pad pos := by
      rw [← hd', WalStreamDecoder.consume, List.length_drop]
    have hle : (H.paging.lay (pos + H.paging.pad pos) (r.bytes.take 4)).length
        ≤ (H.paging.lay (pos + H.paging.pad pos) r.bytes).length := by
      have hsplit := H.paging.lay_append (pos + H.paging.pad pos) (r.bytes.take 4) (r.bytes.drop 4)
      rw [List.take_append_drop] at hsplit
      rw [hsplit, List.length_append]
      omega
    rw [hd'] at hlength hrecord ⊢
    simp only [hlength]
    by_cases hfour : (H.paging.lay (pos + H.paging.pad pos) (r.bytes.take 4)).length ≤ d'.buf.length
    · rw [if_pos hfour]
      simp only [r.totLen, if_neg (show ¬ r.bytes.length < SIZE_OF_XLOG_RECORD by omega), hrecord]
      by_cases hfits : (H.paging.lay (pos + H.paging.pad pos) r.bytes).length ≤ d'.buf.length
      · rw [if_pos (by omega), if_pos hfits]
        simp only [← hd', consume_consume]
      · rw [if_neg (by omega), if_neg hfits]
        exact Or.inr ⟨by omega, rfl⟩
    · rw [if_neg (by omega), if_neg hfour]
      exact Or.inr ⟨by omega, rfl⟩

theorem consume_entry (h : Reads H d pos (r :: recs)) :
    Reads H (d.consume (H.paging.entry pos r.bytes).length) (H.paging.next pos r.bytes) recs :=
  h.consume rfl

end Reads

/-! ## Whole streams -/

def WalStreamDecoder.polls : Nat → WalStreamDecoder → List WalStreamDecoder.Polled
  | 0, _ => []
  | n + 1, d => d.pollDecode.2 :: d.pollDecode.1.polls n

/-- A decoder that has all of the stream hands out its records, and then asks for
more. -/
theorem Reads.polls_eq {H : PageHeaders} {recs : List RecordImage} :
    ∀ {d : WalStreamDecoder} {pos : Nat}, Reads H d pos recs → d.buf = H.wal pos recs →
      d.polls (recs.length + 1) = (H.records pos recs).map (fun e => .ok (some e)) ++ [.ok none] := by
  induction recs with
  | nil =>
    intro d pos h _
    simp only [List.length_nil, WalStreamDecoder.polls, h.poll_nil]
    rfl
  | cons r recs ih =>
    intro d pos h hall
    have hwal : H.wal pos (r :: recs)
        = H.paging.entry pos r.bytes ++ H.wal (H.paging.next pos r.bytes) recs := rfl
    have hpoll := h.poll_cons
    rw [if_pos] at hpoll
    · rw [List.length_cons, WalStreamDecoder.polls, hpoll, ih h.consume_entry]
      · rfl
      · show d.buf.drop _ = _
        rw [hall, hwal, List.drop_left]
    · rw [hall, hwal, List.length_append, Paging.next]
      omega

/-- **WAL framing is exact.** From any start position, a decoder that is fed a list of
records laid out as WAL hands out exactly these records, in order and each with the
LSN of its first byte, and then asks for more bytes. -/
theorem framing_exact (H : PageHeaders) (start : Lsn) (recs : List RecordImage) :
    ((WalStreamDecoder.new start).feedBytes (H.wal start.raw.toNat recs)).polls (recs.length + 1)
      = (H.records start.raw.toNat recs).map (fun e => .ok (some e)) ++ [.ok none] := by
  refine Reads.polls_eq ⟨?_, rfl, List.prefix_rfl⟩ rfl
  exact (UInt64.ofNat_toNat).symm

end AethelDB.Pageserver
