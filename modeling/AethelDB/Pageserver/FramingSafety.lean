import AethelDB.Lib.Checked
import AethelDB.Lib.Run
import AethelDB.Pageserver.Chunking

/-!
# Framing arbitrary bytes

`Framing` says what the decoder makes of WAL that was written properly. Here the bytes are
whatever the network delivered: lengths that lead nowhere, headers in the wrong place, polls
after an error. `collect_payload`, `consume` and `poll_decode` are written down once more
with every sum, difference, product, index and slice as an operation that panics when it
leaves its range, and no such operation ever does, as long as positions stay below `2^64`.

The position of the decoder is never strictly inside a page header (`Placed`): it is at the
start of a page or behind the header of its page. Padding stops at the latest where the page
does, a page that is skipped ends at the next one, and a payload ends behind the header of
its last page. This is why a record is found only where a record can start.
-/

namespace AethelDB.Pageserver

open AethelDB.Lib

namespace WalStreamDecoder

/-! ## The decoder with every operation checked -/

/-- `lsn + n`. -/
def addLsn (lsn : UInt64) (n : Nat) : Checked WalDecodeError UInt64 := do
  return UInt64.ofNat (← Checked.add 64 lsn.toNat n)

def pageHeaderSizeChecked (d : WalStreamDecoder) (lsn : UInt64) : Checked WalDecodeError Nat := do
  if (← Checked.rem lsn.toNat d.walSegSize.toNat) = 0 then return SIZE_OF_XLOG_LONG_PHD
  else return SIZE_OF_XLOG_SHORT_PHD

/-- Validate the page header at `buf[off]`, absolute LSN `lsn`. -/
def checkPageHeaderChecked (d : WalStreamDecoder) (off : Nat) (lsn : UInt64) :
    Checked WalDecodeError Unit := do
  if ¬ d.checkMagic then return ()
  else
    let lo ← Checked.get d.buf off
    let hi ← Checked.get d.buf (← Checked.add 64 off 1)
    let magic := UInt16.ofNat (fromLeBytes [lo, hi])
    if magic ≠ XLOG_PAGE_MAGIC_PG16 then
      .error (.error (.badPageMagic magic XLOG_PAGE_MAGIC_PG16))
    else
      -- the info word is read, and a long header in the wrong place tolerated
      let _ ← Checked.get d.buf (← Checked.add 64 off 2)
      let _ ← Checked.get d.buf (← Checked.add 64 off 3)
      let _ ← Checked.rem lsn.toNat d.walSegSize.toNat
      return ()

def collectLoopChecked (d : WalStreamDecoder) (n : Nat) :
    Nat → List UInt8 → Nat → UInt64 → Option UInt64 → Checked WalDecodeError (Option Payload)
  | 0, _, _, _, _ => .ok none
  | fuel + 1, out, off, lsn, first =>
    if n ≤ out.length then .ok (some (out, off, first.getD lsn))
    else if lsn.toNat % XLOG_BLCKSZ = 0 then do
      let h ← d.pageHeaderSizeChecked lsn
      if d.buf.length < (← Checked.add 64 off h) then return none
      else
        d.checkPageHeaderChecked off lsn
        collectLoopChecked d n fuel out (← Checked.add 64 off h) (← addLsn lsn h) first
    else do
      let pageRemaining ← Checked.sub XLOG_BLCKSZ (lsn.toNat % XLOG_BLCKSZ)
      let want := min (← Checked.sub n out.length) pageRemaining
      if d.buf.length < (← Checked.add 64 off want) then return none
      else
        let part ← Checked.slice d.buf off (← Checked.add 64 off want)
        collectLoopChecked d n fuel (out ++ part) (← Checked.add 64 off want) (← addLsn lsn want)
          (some (first.getD lsn))

def collectPayloadChecked (d : WalStreamDecoder) (fuel n : Nat) :
    Checked WalDecodeError (Option Payload) :=
  d.collectLoopChecked n fuel [] 0 d.lsn none

/-- `buf.drain(0..raw)` and `lsn += raw`. -/
def consumeChecked (d : WalStreamDecoder) (raw : Nat) : Checked WalDecodeError WalStreamDecoder := do
  let _ ← Checked.slice d.buf 0 raw
  return { d with buf := d.buf.drop raw, lsn := ← addLsn d.lsn raw }

def misalignPadChecked (d : WalStreamDecoder) : Checked WalDecodeError Nat :=
  if d.lsn.toNat % 8 = 0 then .ok 0 else Checked.sub 8 (d.lsn.toNat % 8)

/-- `(rec_lsn / XLOG_BLCKSZ + 1) * XLOG_BLCKSZ - self.lsn`. -/
def pageSkipChecked (d : WalStreamDecoder) (recLsn : UInt64) : Checked WalDecodeError Nat := do
  let page ← Checked.add 64 (recLsn.toNat / XLOG_BLCKSZ) 1
  let nextPage ← Checked.mul 64 page XLOG_BLCKSZ
  Checked.sub nextPage d.lsn.toNat

/-- `u32::from_le_bytes([len_bytes[0], len_bytes[1], len_bytes[2], len_bytes[3]])`. -/
def xlTotLenChecked (lenBytes : List UInt8) : Checked WalDecodeError Nat := do
  return fromLeBytes [← Checked.get lenBytes 0, ← Checked.get lenBytes 1,
    ← Checked.get lenBytes 2, ← Checked.get lenBytes 3]

/-- The loop of `poll_decode`; its fuel is that of the loops inside it as well. An error of the
decoder is a result of the poll, only a panic is none. -/
def pollLoopChecked :
    Nat → WalStreamDecoder → Checked WalDecodeError (WalStreamDecoder × Polled)
  | 0, d => .ok (d, .ok none)
  | fuel + 1, d => do
    let pad ← d.misalignPadChecked
    if d.buf.length < pad then return (d, .ok none)
    else
      let d ← d.consumeChecked pad
      match ← Checked.outcome (d.collectPayloadChecked (fuel + 1) 4) with
      | .error e => return (d, .error e)
      | .ok none => return (d, .ok none)
      | .ok (some (lenBytes, _, recLsn)) =>
        let xlTotLen ← xlTotLenChecked lenBytes
        if xlTotLen < SIZE_OF_XLOG_RECORD then
          let skip ← d.pageSkipChecked recLsn
          if d.buf.length < skip then return (d, .ok none)
          else pollLoopChecked fuel (← d.consumeChecked skip)
        else match ← Checked.outcome (d.collectPayloadChecked (fuel + 1) xlTotLen) with
          | .error e => return (d, .error e)
          | .ok none => return (d, .ok none)
          | .ok (some (record, raw, recLsn)) =>
            return (← d.consumeChecked raw, .ok (some (⟨recLsn⟩, record)))

/-! ## No operation panics -/

variable {lsn : UInt64} {n : Nat}

theorem addLsn_eq (h : lsn.toNat + n < 2 ^ 64) : addLsn lsn n = .ok (lsn + UInt64.ofNat n) := by
  have hsum : UInt64.ofNat (lsn.toNat + n) = lsn + UInt64.ofNat n := by
    rw [UInt64.ofNat_add, UInt64.ofNat_toNat]
  rw [addLsn, Checked.add_eq h, Checked.bind_ok, hsum]
  rfl

theorem toNat_add_ofNat (h : lsn.toNat + n < 2 ^ 64) :
    (lsn + UInt64.ofNat n).toNat = lsn.toNat + n := by
  rw [UInt64.toNat_add, UInt64.toNat_ofNat']
  omega

variable {d : WalStreamDecoder}

theorem pageHeaderSizeChecked_eq (hseg : d.walSegSize ≠ 0) (lsn : UInt64) :
    d.pageHeaderSizeChecked lsn = .ok (d.pageHeaderSize lsn) := by
  have hseg' : d.walSegSize.toNat ≠ 0 := fun h => hseg (UInt64.toNat_inj.mp h)
  have hrem : lsn.toNat % d.walSegSize.toNat = 0 ↔ lsn % d.walSegSize = 0 := by
    rw [← UInt64.toNat_mod, ← UInt64.toNat_inj]
    rfl
  unfold pageHeaderSizeChecked pageHeaderSize
  rw [Checked.rem_eq hseg', Checked.bind_ok]
  by_cases hlong : lsn % d.walSegSize = 0
  · rw [if_pos (hrem.mpr hlong), if_pos hlong]
    rfl
  · rw [if_neg (hlong ∘ hrem.mp), if_neg hlong]
    rfl

theorem checkPageHeaderChecked_eq (hseg : d.walSegSize ≠ 0) {off : Nat} (hoff : off + 4 ≤ d.buf.length)
    (hlen : d.buf.length < 2 ^ 64) (lsn : UInt64) :
    d.checkPageHeaderChecked off lsn = Checked.lift (d.checkPageHeader off) := by
  have hseg' : d.walSegSize.toNat ≠ 0 := fun h => hseg (UInt64.toNat_inj.mp h)
  have htwo : (d.buf.drop off).take 2 = [d.buf[off], d.buf[off + 1]] := by
    rw [List.drop_eq_getElem_cons (by omega), List.drop_eq_getElem_cons (by omega)]
    rfl
  unfold checkPageHeaderChecked checkPageHeader
  rw [htwo]
  by_cases hmagic : d.checkMagic = true
  · rw [if_neg (not_not_intro hmagic)]
    simp only [Checked.get_eq (show off < d.buf.length by omega),
      Checked.get_eq (show off + 1 < d.buf.length by omega),
      Checked.get_eq (show off + 2 < d.buf.length by omega),
      Checked.get_eq (show off + 3 < d.buf.length by omega),
      Checked.add_eq (show off + 1 < 2 ^ 64 by omega), Checked.add_eq (show off + 2 < 2 ^ 64 by omega),
      Checked.add_eq (show off + 3 < 2 ^ 64 by omega), Checked.rem_eq hseg', Checked.bind_ok, hmagic,
      true_and]
    split <;> rfl
  · rw [if_pos hmagic, if_neg (fun h => hmagic h.1)]
    rfl

theorem four_le_pageHeaderSize (d : WalStreamDecoder) (lsn : UInt64) : 4 ≤ d.pageHeaderSize lsn := by
  unfold pageHeaderSize
  split <;> decide

/-- `lsn` is `off` bytes behind the decoder all along the payload loop, so that no position
is beyond what the buffer holds. -/
theorem collectLoopChecked_eq (hseg : d.walSegSize ≠ 0)
    (hpos : d.lsn.toNat + d.buf.length + XLOG_BLCKSZ ≤ 2 ^ 64) :
    ∀ {fuel : Nat} {out : List UInt8} {off : Nat} {lsn : UInt64} {first : Option UInt64},
      off ≤ d.buf.length → lsn.toNat = d.lsn.toNat + off →
      d.collectLoopChecked n fuel out off lsn first
        = Checked.lift (d.collectLoop n fuel out off lsn first) := by
  have hblock : XLOG_BLCKSZ = 8192 := rfl
  intro fuel
  induction fuel with
  | zero => intro _ _ _ _ _ _; rfl
  | succ fuel ih =>
    intro out off lsn first hoff hlsn
    rw [collectLoopChecked, collectLoop]
    by_cases hdone : n ≤ out.length
    · rw [if_pos hdone, if_pos hdone]
      rfl
    rw [if_neg hdone, if_neg hdone]
    by_cases hpage : lsn.toNat % XLOG_BLCKSZ = 0
    · have hsmall := d.pageHeaderSize_lt lsn
      have hfour := d.four_le_pageHeaderSize lsn
      rw [if_pos hpage, if_pos hpage, pageHeaderSizeChecked_eq hseg, Checked.bind_ok,
        Checked.add_eq (by omega), Checked.bind_ok]
      by_cases hshort : d.buf.length < off + d.pageHeaderSize lsn
      · rw [if_pos hshort, if_pos hshort]
        rfl
      rw [if_neg hshort, if_neg hshort, checkPageHeaderChecked_eq hseg (by omega) (by omega)]
      cases d.checkPageHeader off with
      | error e => rfl
      | ok u =>
        rw [addLsn_eq (by omega)]
        exact ih (by omega) (by rw [toNat_add_ofNat (by omega)]; omega)
    · have hlt := Nat.mod_lt lsn.toNat (show 0 < XLOG_BLCKSZ by decide)
      rw [if_neg hpage, if_neg hpage, Checked.sub_eq (by omega), Checked.bind_ok,
        Checked.sub_eq (by omega), Checked.bind_ok]
      obtain ⟨want, hwant⟩ :
          ∃ w, min (n - out.length) (XLOG_BLCKSZ - lsn.toNat % XLOG_BLCKSZ) = w := ⟨_, rfl⟩
      simp only [hwant]
      rw [Checked.add_eq (by omega), Checked.bind_ok]
      by_cases hshort : d.buf.length < off + want
      · rw [if_pos hshort, if_pos hshort]
        rfl
      rw [if_neg hshort, if_neg hshort, Checked.bind_ok, Checked.slice_eq (by omega),
        Checked.bind_ok, Checked.bind_ok, addLsn_eq (by omega), Nat.add_sub_cancel_left]
      exact ih (by omega) (by rw [toNat_add_ofNat (by omega)]; omega)

theorem collectPayloadChecked_eq (hseg : d.walSegSize ≠ 0)
    (hpos : d.lsn.toNat + d.buf.length + XLOG_BLCKSZ ≤ 2 ^ 64) {fuel : Nat}
    (hfuel : d.buf.length < fuel) (n : Nat) :
    d.collectPayloadChecked fuel n = Checked.lift (d.collectPayload n) := by
  rw [collectPayloadChecked, collectLoopChecked_eq hseg hpos (Nat.zero_le _) rfl]
  exact congrArg Checked.lift (d.collectLoop_fuel n (Nat.zero_le _) (by omega) (by omega))

theorem consumeChecked_eq (hn : n ≤ d.buf.length) (hpos : d.lsn.toNat + d.buf.length < 2 ^ 64) :
    d.consumeChecked n = .ok (d.consume n) := by
  rw [consumeChecked, Checked.slice_eq ⟨Nat.zero_le _, hn⟩, Checked.bind_ok, addLsn_eq (by omega)]
  rfl

theorem misalignPadChecked_eq (d : WalStreamDecoder) : d.misalignPadChecked = .ok d.misalignPad := by
  unfold misalignPadChecked misalignPad
  split
  · rfl
  · exact Checked.sub_eq (by omega)

/-- The next page starts above the decoder, as the length was found on the page it is on. -/
theorem pageSkipChecked_eq {recLsn : UInt64}
    (hpage : recLsn.toNat / XLOG_BLCKSZ = d.lsn.toNat / XLOG_BLCKSZ)
    (hpos : d.lsn.toNat + XLOG_BLCKSZ < 2 ^ 64) :
    d.pageSkipChecked recLsn = .ok (d.pageSkip recLsn) := by
  have hskip := d.pageSkip_eq hpage
  have hnext : recLsn.toNat / XLOG_BLCKSZ = d.lsn.toNat / XLOG_BLCKSZ := hpage
  simp only [XLOG_BLCKSZ, PAGE_SIZE] at *
  rw [pageSkipChecked]
  simp only [XLOG_BLCKSZ, PAGE_SIZE]
  rw [Checked.add_eq (by omega), Checked.bind_ok, Checked.mul_eq (by omega), Checked.bind_ok,
    Checked.sub_eq (by omega), hskip]
  congr 1
  omega

/-! ## What a payload is -/

variable {p : Payload}

namespace Collects

variable {n off : Nat} {out : List UInt8} {lsn : UInt64} {first : Option UInt64} {p : Payload}

theorem isPrefix (h : Collects d n out off lsn first p) : out <+: p.1 := by
  induction h with
  | done _ => exact List.prefix_rfl
  | header _ _ _ _ ih => exact ih
  | part _ _ _ _ _ ih => exact (List.prefix_append _ _).trans ih

theorem length_eq (h : Collects d n out off lsn first p) (hout : out.length ≤ n) :
    p.1.length = n := by
  induction h with
  | done hdone => exact le_antisymm hout hdone
  | header _ _ _ _ ih => exact ih hout
  | part _ _ hwant _ _ ih =>
    refine ih ?_
    rw [List.length_append, List.length_take]
    omega

/-- A shorter payload from the same place is the beginning of a longer one. -/
theorem take_eq {m : Nat} {q : Payload} (h : Collects d n out off lsn first p)
    (h' : Collects d m out off lsn first q) (hout : out.length ≤ n) (hnm : n ≤ m) :
    q.1.take n = p.1 := by
  induction h generalizing q with
  | done hdone =>
    rw [← le_antisymm hout hdone]
    exact (List.prefix_iff_eq_take.mp h'.isPrefix).symm
  | header hmore hpage _ _ ih =>
    cases h' with
    | done hdone => omega
    | header _ _ _ rest' => exact ih rest' hout
    | part _ hinside _ _ _ => exact absurd hpage hinside
  | @part out off want lsn first p hmore hpage hwant hlen rest ih =>
    cases h' with
    | done hdone => omega
    | header _ hstart _ _ => exact absurd hstart hpage
    | @part _ _ want' _ _ _ _ _ hwant' hlen' rest' =>
      by_cases hsame : want = want'
      · -- both take what is left of the page
        subst hsame
        exact ih rest' (by rw [List.length_append, List.length_take]; omega)
      · -- the shorter one ends here
        have hends : out.length + want = n := by omega
        have hlonger : want ≤ want' := by omega
        have hall : (out ++ (d.buf.drop off).take want).length = n := by
          rw [List.length_append, List.length_take, List.length_drop]
          omega
        have hp : p.1 = out ++ (d.buf.drop off).take want := by
          have hfront := rest.isPrefix
          exact (hfront.eq_of_length (hall.trans (rest.length_eq hall.le).symm)).symm
        have hq : out ++ (d.buf.drop off).take want <+: q.1 := by
          refine List.IsPrefix.trans ?_ rest'.isPrefix
          exact (List.prefix_append_right_inj out).mpr (List.take_prefix_take_left hlonger)
        rw [hp, List.prefix_iff_eq_take.mp hq, hall]

end Collects

/-- Behind the header it may start at, a payload takes at least its own length. -/
theorem collectPayload_span (hn : 0 < n) (h : d.collectPayload n = .ok (some p)) :
    p.2.2.toNat + n ≤ d.lsn.toNat + p.2.1 ∧ p.2.1 ≤ d.buf.length := by
  have hwhole := (collects_of_collectPayload h).span (Nat.zero_le _)
  refine ⟨?_, hwhole.2⟩
  rw [collectPayload_first hn h]
  cases collects_of_collectPayload h with
  | done hdone => exact absurd hdone (by rw [List.length_nil]; omega)
  | header _ hpage hlen rest =>
    have hspan := rest.span hlen
    rw [if_pos hpage]
    simp only [List.length_nil] at hspan
    omega
  | part _ hpage _ _ _ =>
    rw [if_neg hpage]
    simp only [List.length_nil] at hwhole
    omega

theorem length_of_collectPayload (h : d.collectPayload n = .ok (some p)) : p.1.length = n :=
  (collects_of_collectPayload h).length_eq (Nat.zero_le _)

/-! ## A poll does not panic -/

theorem consume_position (hn : n ≤ d.buf.length) (hpos : d.lsn.toNat + d.buf.length < 2 ^ 64) :
    (d.consume n).lsn.toNat = d.lsn.toNat + n ∧
      (d.consume n).lsn.toNat + (d.consume n).buf.length = d.lsn.toNat + d.buf.length := by
  have hlsn : (d.consume n).lsn.toNat = d.lsn.toNat + n := toNat_add_ofNat (by omega)
  have hbuf : (d.consume n).buf.length = d.buf.length - n := List.length_drop
  refine ⟨hlsn, ?_⟩
  rw [hlsn, hbuf]
  omega

theorem xlTotLenChecked_eq {lenBytes : List UInt8} (h : lenBytes.length = 4) :
    xlTotLenChecked lenBytes = .ok (fromLeBytes lenBytes) := by
  obtain ⟨b₀, bs, rfl⟩ := List.exists_cons_of_length_eq_add_one h
  obtain ⟨b₁, b₂, b₃, rfl⟩ := List.length_eq_three.mp (Nat.succ.inj h)
  rfl

/-- With fuel for every byte in the buffer the loops end by themselves, and nothing panics. -/
theorem pollLoopChecked_eq :
    ∀ {fuel : Nat} {d : WalStreamDecoder}, d.walSegSize ≠ 0 →
      d.lsn.toNat + d.buf.length + XLOG_BLCKSZ ≤ 2 ^ 64 → d.buf.length < fuel →
      pollLoopChecked fuel d = .ok (pollLoop fuel d) := by
  have hblock : XLOG_BLCKSZ = 8192 := rfl
  intro fuel
  induction fuel with
  | zero => intro _ _ _ hfuel; omega
  | succ fuel ih =>
    intro d hseg hpos hfuel
    rw [pollLoopChecked, pollLoop, misalignPadChecked_eq, Checked.bind_ok]
    by_cases hshort : d.buf.length < d.misalignPad
    · rw [if_pos hshort, if_pos hshort]
      rfl
    have hmoved := consume_position (d := d) (n := d.misalignPad) (by omega) (by omega)
    have hseg₁ : (d.consume d.misalignPad).walSegSize ≠ 0 := hseg
    rw [if_neg hshort, if_neg hshort, consumeChecked_eq (by omega) (by omega), Checked.bind_ok]
    obtain ⟨d₁, hd₁⟩ : ∃ d₁, d.consume d.misalignPad = d₁ := ⟨_, rfl⟩
    simp only [hd₁] at hmoved hseg₁ ⊢
    rw [collectPayloadChecked_eq hseg₁ (by omega) (by omega), Checked.outcome_lift, Checked.bind_ok]
    cases hlength : d₁.collectPayload 4 with
    | error e => rfl
    | ok found =>
      rcases found with _ | ⟨lenBytes, raw, recLsn⟩
      · rfl
      have hfour := length_of_collectPayload hlength
      have hspan := (collects_of_collectPayload hlength).span (Nat.zero_le _)
      rw [List.length_nil] at hspan
      have hskip := pageSkipChecked_eq (collectPayload_page (by decide) hlength) (by omega)
      dsimp only at hfour hskip ⊢
      rw [xlTotLenChecked_eq hfour, Checked.bind_ok]
      by_cases hend : fromLeBytes lenBytes < SIZE_OF_XLOG_RECORD
      · rw [if_pos hend, if_pos hend, hskip, Checked.bind_ok]
        by_cases hpage : d₁.buf.length < d₁.pageSkip recLsn
        · rw [if_pos hpage, if_pos hpage]
          rfl
        have hnext := consume_position (d := d₁) (n := d₁.pageSkip recLsn) (by omega) (by omega)
        rw [if_neg hpage, if_neg hpage, consumeChecked_eq (by omega) (by omega), Checked.bind_ok]
        have hless := length_consume_pageSkip hlength (by omega)
        exact ih hseg₁ (by omega) (by omega)
      · rw [if_neg hend, if_neg hend, collectPayloadChecked_eq hseg₁ (by omega) (by omega),
          Checked.outcome_lift, Checked.bind_ok]
        cases hrecord : d₁.collectPayload (fromLeBytes lenBytes) with
        | error e => rfl
        | ok found =>
          rcases found with _ | ⟨record, raw', recLsn'⟩
          · rfl
          have hin := ((collects_of_collectPayload hrecord).span (Nat.zero_le _)).2
          dsimp only at hin ⊢
          rw [consumeChecked_eq hin (by omega)]
          rfl

/-! ## Where the decoder is -/

/-- Size of the header of the page that `lsn` is on, with segments of `seg` bytes. -/
def headerSizeAt (seg lsn : UInt64) : Nat :=
  if lsn / UInt64.ofNat XLOG_BLCKSZ * UInt64.ofNat XLOG_BLCKSZ % seg = 0 then SIZE_OF_XLOG_LONG_PHD
  else SIZE_OF_XLOG_SHORT_PHD

/-- `lsn` is a byte of the header of its page. -/
def InPageHeader (seg lsn : UInt64) : Prop := lsn.toNat % XLOG_BLCKSZ < headerSizeAt seg lsn

instance (seg lsn : UInt64) : Decidable (InPageHeader seg lsn) :=
  inferInstanceAs (Decidable (_ < _))

/-- At the start of a page, or behind the header of one. -/
def Placed (seg lsn : UInt64) : Prop := lsn.toNat % XLOG_BLCKSZ = 0 ∨ ¬ InPageHeader seg lsn

instance (seg lsn : UInt64) : Decidable (Placed seg lsn) := inferInstanceAs (Decidable (_ ∨ _))

theorem headerSizeAt_congr (seg : UInt64) {lsn' : UInt64}
    (h : lsn.toNat / XLOG_BLCKSZ = lsn'.toNat / XLOG_BLCKSZ) :
    headerSizeAt seg lsn = headerSizeAt seg lsn' := by
  have hpage : lsn / UInt64.ofNat XLOG_BLCKSZ = lsn' / UInt64.ofNat XLOG_BLCKSZ :=
    UInt64.toNat_inj.mp (by rw [UInt64.toNat_div, UInt64.toNat_div]; exact h)
  unfold headerSizeAt
  rw [hpage]

theorem pageHeaderSize_start (hpage : lsn.toNat % XLOG_BLCKSZ = 0) :
    d.pageHeaderSize lsn = headerSizeAt d.walSegSize lsn := by
  have hlt := lsn.toNat_lt
  have hstart : lsn / UInt64.ofNat XLOG_BLCKSZ * UInt64.ofNat XLOG_BLCKSZ = lsn := by
    have hsize : (UInt64.ofNat XLOG_BLCKSZ).toNat = 8192 := rfl
    refine UInt64.toNat_inj.mp ?_
    rw [UInt64.toNat_mul, UInt64.toNat_div, hsize]
    simp only [XLOG_BLCKSZ, PAGE_SIZE] at hpage
    omega
  unfold pageHeaderSize headerSizeAt
  rw [hstart]

theorem not_inPageHeader_header (hpage : lsn.toNat % XLOG_BLCKSZ = 0) :
    ¬ InPageHeader d.walSegSize (lsn + UInt64.ofNat (d.pageHeaderSize lsn)) := by
  have hlt := lsn.toNat_lt
  have hsmall := d.pageHeaderSize_lt lsn
  have hsize := pageHeaderSize_start (d := d) hpage
  simp only [XLOG_BLCKSZ, PAGE_SIZE] at hpage hsmall
  have hmoved := toNat_add_ofNat (show lsn.toNat + d.pageHeaderSize lsn < 2 ^ 64 by omega)
  have hsame := headerSizeAt_congr d.walSegSize
    (show (lsn + UInt64.ofNat (d.pageHeaderSize lsn)).toNat / XLOG_BLCKSZ = lsn.toNat / XLOG_BLCKSZ by
      rw [hmoved]
      simp only [XLOG_BLCKSZ, PAGE_SIZE]
      omega)
  unfold InPageHeader
  rw [hsame, ← hsize, hmoved]
  simp only [XLOG_BLCKSZ, PAGE_SIZE]
  omega

/-- Moving on within a page, at most to its end. -/
theorem Placed.add {seg : UInt64} (h : Placed seg lsn) (hpage : lsn.toNat % XLOG_BLCKSZ ≠ 0)
    {k : Nat} (hk : k ≤ XLOG_BLCKSZ - lsn.toNat % XLOG_BLCKSZ) :
    Placed seg (lsn + UInt64.ofNat k) := by
  have hlt := lsn.toNat_lt
  have hout := h.resolve_left hpage
  simp only [XLOG_BLCKSZ, PAGE_SIZE] at hpage hk
  by_cases hend : lsn.toNat % 8192 + k = 8192
  · refine Or.inl ?_
    rw [UInt64.toNat_add, UInt64.toNat_ofNat']
    simp only [XLOG_BLCKSZ, PAGE_SIZE]
    omega
  · refine Or.inr ?_
    have hmoved := toNat_add_ofNat (show lsn.toNat + k < 2 ^ 64 by omega)
    have hsame := headerSizeAt_congr seg
      (show (lsn + UInt64.ofNat k).toNat / XLOG_BLCKSZ = lsn.toNat / XLOG_BLCKSZ by
        rw [hmoved]
        simp only [XLOG_BLCKSZ, PAGE_SIZE]
        omega)
    unfold InPageHeader at hout ⊢
    rw [hsame, hmoved]
    simp only [XLOG_BLCKSZ, PAGE_SIZE] at hout ⊢
    omega

/-- The payload loop ends at the start of a page or behind a header. -/
theorem Collects.placed {off : Nat} {out : List UInt8} {base : UInt64} {first : Option UInt64}
    (h : Collects d n out off lsn first p) (hlsn : lsn = base + UInt64.ofNat off)
    (hplaced : Placed d.walSegSize lsn) : Placed d.walSegSize (base + UInt64.ofNat p.2.1) := by
  induction h with
  | done _ => exact hlsn ▸ hplaced
  | header _ hpage _ _ ih =>
    refine ih ?_ (Or.inr (not_inPageHeader_header hpage))
    rw [hlsn, UInt64.ofNat_add, UInt64.add_assoc]
  | part _ hpage hwant _ _ ih =>
    refine ih ?_ (hplaced.add hpage (by omega))
    rw [hlsn, UInt64.ofNat_add, UInt64.add_assoc]

/-- The first byte of a payload is no header byte. -/
theorem collectPayload_placed (hn : 0 < n) (h : d.collectPayload n = .ok (some p))
    (hplaced : Placed d.walSegSize d.lsn) : ¬ InPageHeader d.walSegSize p.2.2 := by
  have hfirst := collectPayload_first hn h
  by_cases hpage : d.lsn.toNat % XLOG_BLCKSZ = 0
  · have hlt := p.2.2.toNat_lt
    rw [if_pos hpage] at hfirst
    have heq : p.2.2 = d.lsn + UInt64.ofNat (d.pageHeaderSize d.lsn) :=
      UInt64.toNat_inj.mp (by rw [hfirst, toNat_add_ofNat (by omega)])
    rw [heq]
    exact not_inPageHeader_header hpage
  · rw [if_neg hpage, Nat.add_zero] at hfirst
    rw [UInt64.toNat_inj.mp hfirst]
    exact hplaced.resolve_left hpage

theorem eight_dvd_pageHeaderSize (d : WalStreamDecoder) (lsn : UInt64) :
    d.pageHeaderSize lsn % 8 = 0 := by
  unfold pageHeaderSize
  split <;> rfl

theorem aligned_of_misalignPad (h : d.misalignPad = 0) : d.lsn.toNat % 8 = 0 := by
  unfold misalignPad at h
  split at h
  · assumption
  · omega

/-- A payload that starts at an aligned decoder is aligned. -/
theorem collectPayload_aligned (hn : 0 < n) (h : d.collectPayload n = .ok (some p))
    (haligned : d.misalignPad = 0) : p.2.2.toNat % 8 = 0 := by
  have hlsn := aligned_of_misalignPad haligned
  have hheader := d.eight_dvd_pageHeaderSize d.lsn
  rw [collectPayload_first hn h]
  split <;> omega

/-- The padding ends on the page it starts on, as `8` divides the size of a page. -/
theorem placed_consume_pad (hpad : d.misalignPad ≠ 0) (hplaced : Placed d.walSegSize d.lsn) :
    Placed d.walSegSize (d.consume d.misalignPad).lsn := by
  have hmis : d.lsn.toNat % 8 ≠ 0 := fun h => hpad (if_pos h)
  have heq : d.misalignPad = 8 - d.lsn.toNat % 8 := if_neg hmis
  refine hplaced.add ?_ ?_
  all_goals
    simp only [XLOG_BLCKSZ, PAGE_SIZE]
    omega

theorem placed_consume_page {lenBytes : List UInt8} {raw : Nat} {recLsn : UInt64}
    (hlength : d.collectPayload 4 = .ok (some (lenBytes, raw, recLsn))) :
    Placed d.walSegSize (d.consume (d.pageSkip recLsn)).lsn := by
  have hlt := d.lsn.toNat_lt
  have hskip : d.pageSkip recLsn = _ := d.pageSkip_eq (collectPayload_page (by decide) hlength)
  refine Or.inl ?_
  show (d.lsn + UInt64.ofNat (d.pageSkip recLsn)).toNat % XLOG_BLCKSZ = 0
  rw [hskip, UInt64.toNat_add, UInt64.toNat_ofNat']
  simp only [XLOG_BLCKSZ, PAGE_SIZE]
  omega

/-! ## What a poll hands out -/

/-- What every record image handed out is. -/
structure WellFramed (e : Lsn × List UInt8) : Prop where
  length : e.2.length = fromLeBytes (e.2.take 4)
  long : SIZE_OF_XLOG_RECORD ≤ e.2.length
  aligned : e.1.raw.toNat % 8 = 0
  outside : ¬ InPageHeader DEFAULT_WAL_SEG_SIZE e.1.raw

/-- A record that has been handed out ends where the next one starts, at the latest. -/
def Before (a b : Lsn × List UInt8) : Prop := a.1.raw.toNat + a.2.length ≤ b.1.raw.toNat

namespace Poll

variable {d' : WalStreamDecoder} {r : Polled}

/-- A poll consumes some of the buffer, and does nothing else to the decoder. -/
theorem consumes (h : Poll d d' r) : ∃ n ≤ d.buf.length, d' = d.consume n := by
  induction h with
  | @pad d _ _ _ hlen _ ih =>
    obtain ⟨n, hn, rfl⟩ := ih
    rw [consume, List.length_drop] at hn
    exact ⟨d.misalignPad + n, by omega, consume_consume _ _ _⟩
  | @page d _ _ _ _ recLsn _ _ _ hlen _ ih =>
    obtain ⟨n, hn, rfl⟩ := ih
    rw [consume, List.length_drop] at hn
    exact ⟨d.pageSkip recLsn + n, by omega, consume_consume _ _ _⟩
  | record _ _ _ hrecord => exact ⟨_, ((collects_of_collectPayload hrecord).span (Nat.zero_le _)).2, rfl⟩
  | _ => exact ⟨0, Nat.zero_le _, (consume_zero _).symm⟩

theorem placed (h : Poll d d' r) (hplaced : Placed d.walSegSize d.lsn) :
    Placed d.walSegSize d'.lsn := by
  induction h with
  | pad hpad _ _ ih => exact ih (placed_consume_pad hpad hplaced)
  | page _ hlength _ _ _ ih =>
    have hnext := placed_consume_page hlength
    exact ih hnext
  | record _ _ _ hrecord =>
    exact (collects_of_collectPayload hrecord).placed (by simp) hplaced
  | _ => exact hplaced

/-- The record a poll hands out starts at or behind where the decoder was, and ends at or
before where it is then. -/
theorem wellFramed {e : Lsn × List UInt8} (h : Poll d d' r) (hr : r = .ok (some e))
    (hseg : d.walSegSize = DEFAULT_WAL_SEG_SIZE) (hpos : d.lsn.toNat + d.buf.length < 2 ^ 64)
    (hplaced : Placed d.walSegSize d.lsn) :
    WellFramed e ∧ d.lsn.toNat ≤ e.1.raw.toNat ∧ e.1.raw.toNat + e.2.length ≤ d'.lsn.toNat := by
  induction h with
  | pad hpad hlen _ ih =>
    have hmoved := consume_position hlen hpos
    obtain ⟨hframed, hstart, hend⟩ := ih hr hseg (by omega) (placed_consume_pad hpad hplaced)
    exact ⟨hframed, by omega, hend⟩
  | page _ hlength _ hlen _ ih =>
    have hmoved := consume_position hlen hpos
    have hnext := placed_consume_page hlength
    obtain ⟨hframed, hstart, hend⟩ := ih hr hseg (by omega) hnext
    exact ⟨hframed, by omega, hend⟩
  | @record d lenBytes record raw raw' recLsn recLsn' haligned hlength hlong hrecord =>
    obtain rfl := Option.some.inj (Except.ok.inj hr)
    have hsize : SIZE_OF_XLOG_RECORD = 24 := rfl
    have hn : 0 < fromLeBytes lenBytes := by omega
    have hlen := length_of_collectPayload hrecord
    have hspan := collectPayload_span hn hrecord
    have hfirst := collectPayload_first hn hrecord
    have hmoved := consume_position hspan.2 hpos
    have hfour : record.take 4 = lenBytes :=
      (collects_of_collectPayload hlength).take_eq (collects_of_collectPayload hrecord)
        (Nat.zero_le _) (by omega)
    dsimp only at hlen hspan hfirst hmoved ⊢
    refine ⟨⟨by rw [hfour, hlen], by rw [hlen]; exact hlong, collectPayload_aligned hn hrecord haligned,
      hseg ▸ collectPayload_placed hn hrecord hplaced⟩, by omega, by omega⟩
  | _ => simp at hr

end Poll

/-! ## Calls in any order -/

inductive Call where
  | feedBytes (bytes : List UInt8)
  | pollDecode
deriving DecidableEq

/-- A decoder and what its polls have handed out so far, in order. -/
structure Session where
  decoder : WalStreamDecoder
  emitted : List (Lsn × List UInt8)
deriving DecidableEq

/-- The record in the result of a poll, if there is one. -/
def emittedBy : Polled → List (Lsn × List UInt8)
  | .ok (some e) => [e]
  | _ => []

theorem mem_emittedBy {r : Polled} {e : Lsn × List UInt8} :
    e ∈ emittedBy r ↔ r = .ok (some e) := by
  rcases r with _ | _ | e' <;> simp [emittedBy, eq_comm]

theorem pairwise_emittedBy (r : Polled) {R : Lsn × List UInt8 → Lsn × List UInt8 → Prop} :
    (emittedBy r).Pairwise R := by
  rcases r with _ | _ | e' <;> simp [emittedBy]

def Session.call (s : Session) : Call → Session
  | .feedBytes bytes => { s with decoder := s.decoder.feedBytes bytes }
  | .pollDecode =>
    ⟨s.decoder.pollDecode.1, s.emitted ++ emittedBy s.decoder.pollDecode.2⟩

def fed (calls : List Call) : Nat :=
  (calls.map fun
    | .feedBytes bytes => bytes.length
    | .pollDecode => 0).sum

theorem fed_concat (calls : List Call) (c : Call) : fed (calls ++ [c]) = fed calls + fed [c] := by
  unfold fed
  rw [List.map_append, List.sum_append]

/-- What holds between calls, with `n` bytes fed from `start` on. -/
structure Framed (start : Lsn) (n : Nat) (s : Session) : Prop where
  seg : s.decoder.walSegSize = DEFAULT_WAL_SEG_SIZE
  total : s.decoder.lsn.toNat + s.decoder.buf.length = start.raw.toNat + n
  placed : Placed DEFAULT_WAL_SEG_SIZE s.decoder.lsn
  wellFramed : ∀ e ∈ s.emitted, WellFramed e
  ordered : s.emitted.Pairwise Before
  behind : ∀ e ∈ s.emitted, e.1.raw.toNat + e.2.length ≤ s.decoder.lsn.toNat

namespace Framed

variable {start : Lsn} {n : Nat} {s : Session}

theorem feedBytes (h : Framed start n s) (bytes : List UInt8) :
    Framed start (n + bytes.length) (s.call (.feedBytes bytes)) where
  seg := h.seg
  total := by
    have htotal := h.total
    simp only [Session.call, feedBytes_lsn, feedBytes_buf, List.length_append]
    omega
  placed := h.placed
  wellFramed := h.wellFramed
  ordered := h.ordered
  behind := h.behind

theorem pollDecode (h : Framed start n s) (hpos : start.raw.toNat + n < 2 ^ 64) :
    Framed start n (s.call .pollDecode) := by
  obtain ⟨d', r, hpoll⟩ := exists_poll s.decoder
  have htotal := h.total
  have hseg := h.seg
  have hplaced : Placed s.decoder.walSegSize s.decoder.lsn := hseg ▸ h.placed
  obtain ⟨k, hk, hd'⟩ := hpoll.consumes
  have hmoved := consume_position hk (by omega)
  rw [← hd'] at hmoved
  have hbehind : ∀ e ∈ s.emitted, e.1.raw.toNat + e.2.length ≤ d'.lsn.toNat := by
    intro e he
    have := h.behind e he
    omega
  have hseg' : d'.walSegSize = DEFAULT_WAL_SEG_SIZE := by rw [hd']; exact hseg
  have hplaced' : Placed DEFAULT_WAL_SEG_SIZE d'.lsn := hseg ▸ hpoll.placed hplaced
  -- the record that comes now, if one does
  have hnew : ∀ e ∈ emittedBy r, WellFramed e ∧ s.decoder.lsn.toNat ≤ e.1.raw.toNat ∧
      e.1.raw.toNat + e.2.length ≤ d'.lsn.toNat :=
    fun e he => hpoll.wellFramed (mem_emittedBy.mp he) hseg (by omega) hplaced
  rw [Session.call, hpoll.eq]
  refine ⟨hseg', hmoved.2.trans htotal, hplaced', ?_, ?_, ?_⟩
  · intro e he
    rcases List.mem_append.mp he with he | he
    · exact h.wellFramed e he
    · exact (hnew e he).1
  · refine List.pairwise_append.mpr ⟨h.ordered, pairwise_emittedBy r, fun a ha b hb => ?_⟩
    exact (h.behind a ha).trans (hnew b hb).2.1
  · intro e he
    rcases List.mem_append.mp he with he | he
    · exact hbehind e he
    · exact (hnew e he).2.2

/-- Between any two calls, while positions stay below `2^64`. -/
theorem of_calls (hstart : Placed DEFAULT_WAL_SEG_SIZE start.raw) (checkMagic : Bool)
    (calls : List Call) (hpos : start.raw.toNat + fed calls < 2 ^ 64) :
    Framed start (fed calls)
      (run Session.call ⟨{ WalStreamDecoder.new start with checkMagic }, []⟩ calls) := by
  induction calls using List.reverseRecOn with
  | nil => exact ⟨rfl, rfl, hstart, by simp, List.Pairwise.nil, by simp⟩
  | append_singleton calls c ih =>
    rw [fed_concat] at hpos ⊢
    rw [run_concat]
    have h := ih (by omega)
    cases c with
    | feedBytes bytes => exact h.feedBytes bytes
    | pollDecode => exact h.pollDecode (by omega)

end Framed

end WalStreamDecoder

/-- Behind a page header: half a record, a poll, the rest of it and two polls. -/
def splitRecord : List WalStreamDecoder.Call :=
  [.feedBytes (24 :: List.replicate 11 0), .pollDecode, .feedBytes (List.replicate 12 0), .pollDecode,
    .pollDecode]

end AethelDB.Pageserver
