import AethelDB.Safekeeper.Group

/-!
# Reading back what was appended

`WalStorage::read_at` answers from the in-memory ring if that holds all of the range
and else from the segment files, whose lower part `remove_segments_before` may have
recycled. `Retains` relates a store at any moment, flushed or not, to the byte log
of everything appended so far: the segment files hold the log from `start_lsn` on,
and the ring is its last stretch.

`Retains.readAt_eq` is what a read then comes to, and `readAt_refines_log` the same
over every run of appends, flushes and recycling at or below the flush position.
-/

namespace AethelDB.Safekeeper

open AethelDB.Lib

namespace WalStorage

/-- The store keeps `log` from `startLsn` on. -/
structure Retains (s : WalStorage) (log : ByteLog UInt8) : Prop where
  seed : log.seed ≤ s.startLsn.raw.toNat
  start_le_flush : s.startLsn ≤ s.flushLsn
  flush_le_write : s.flushLsn ≤ s.writeLsn
  write : s.writeLsn.raw.toNat = log.fin
  bytes : ∀ {p b}, s.startLsn.raw.toNat ≤ p → log.byteAt p = some b →
    s.files.byteAt s.cfg.segmentSize p = some b
  /-- The ring ends where the log does. -/
  ringEnd : s.ringStart.raw.toNat + s.ring.length = log.fin
  ring : ∀ {k b}, s.ring[k]? = some b → log.byteAt (s.ringStart.raw.toNat + k) = some b

/-! ## Reads -/

variable {log : ByteLog UInt8} {s : WalStorage}

/-- **The slow path reads what the files hold.** -/
theorem readChunks_eq (s : WalStorage) :
    ∀ (fuel : Nat) (pos : UInt64) (data : List UInt8), data.length ≤ fuel →
      pos.toNat + data.length < 2 ^ 64 →
      (∀ k b, data[k]? = some b → s.files.byteAt s.cfg.segmentSize (pos.toNat + k) = some b) →
      s.readChunks fuel pos data.length = .ok data := by
  intro fuel
  induction fuel with
  | zero =>
    intro pos data hfuel _ _
    obtain rfl : data = [] := List.length_eq_zero_iff.mp (by omega)
    rfl
  | succ fuel ih =>
    intro pos data hfuel hfit hbytes
    unfold readChunks
    split
    · next hnil =>
      rw [List.length_eq_zero_iff.mp hnil]
    · next hne =>
      have hsize := s.cfg.segmentSize_pos
      have hoff := Nat.mod_lt pos.toNat hsize
      obtain ⟨k, hk⟩ : ∃ k, min (s.cfg.segmentSize - pos.toNat % s.cfg.segmentSize) data.length = k :=
        ⟨_, rfl⟩
      have hkpos : 0 < k := by omega
      have hkle : k ≤ data.length := by omega
      -- all of the chunk lies in one file
      have hchunk : ∀ j b, j < k → data[j]? = some b →
          (s.files (pos.toNat / s.cfg.segmentSize)).bind
            (fun f => f[pos.toNat % s.cfg.segmentSize + j]?) = some b := by
        intro j b hj hb
        obtain ⟨hdiv, hmod⟩ := div_mod_of_chunk (show pos.toNat ≤ pos.toNat + j by omega)
          (show _ < pos.toNat + (s.cfg.segmentSize - pos.toNat % s.cfg.segmentSize) by omega)
        have hread := hbytes j b hb
        rw [Segments.byteAt, hdiv, hmod, Nat.add_sub_cancel_left] at hread
        exact hread
      obtain ⟨x, hx⟩ : ∃ x, data[k - 1]? = some x :=
        ⟨_, List.getElem?_eq_getElem (by omega)⟩
      obtain ⟨f, hf, hlast⟩ := Option.bind_eq_some_iff.mp (hchunk (k - 1) x (by omega) hx)
      have hlen := (List.getElem?_eq_some_iff.mp hlast).1
      have hfirst : (f.drop (pos.toNat % s.cfg.segmentSize)).take k = data.take k := by
        refine List.ext_getElem? ?_
        intro j
        by_cases hj : j < k
        · obtain ⟨b, hb⟩ : ∃ b, data[j]? = some b := ⟨_, List.getElem?_eq_getElem (by omega)⟩
          have hfb := hchunk j b hj hb
          rw [hf, Option.bind_some] at hfb
          rw [List.getElem?_take_of_lt hj, List.getElem?_drop, List.getElem?_take_of_lt hj, hfb, hb]
        · rw [List.getElem?_take_eq_none (by omega), List.getElem?_take_eq_none (by omega)]
      have hnext : (pos + UInt64.ofNat k).toNat = pos.toNat + k := toNat_add_ofNat (by omega)
      have hrest := ih (pos + UInt64.ofNat k) (data.drop k)
        (by rw [List.length_drop]; omega) (by rw [hnext, List.length_drop]; omega) (by
          intro j b hb
          rw [List.getElem?_drop] at hb
          rw [hnext, Nat.add_assoc]
          exact hbytes _ b hb)
      rw [List.length_drop] at hrest
      simp only [hk, hf, hrest, hfirst, if_pos (show pos.toNat % s.cfg.segmentSize + k ≤ f.length by omega)]
      show Except.ok (data.take k ++ data.drop k) = _
      rw [List.take_append_drop]

/-- The ring holds the last stretch of the log. -/
theorem Retains.ring_slice (h : s.Retains log) {offset n : Nat} (hfit : offset + n ≤ s.ring.length)
    (hlow : log.seed ≤ s.ringStart.raw.toNat + offset) :
    (s.ring.drop offset).take n = log.slice (s.ringStart.raw.toNat + offset) n := by
  refine List.ext_getElem? ?_
  intro k
  by_cases hk : k < n
  · obtain ⟨b, hb⟩ : ∃ b, s.ring[offset + k]? = some b := ⟨_, List.getElem?_eq_getElem (by omega)⟩
    rw [List.getElem?_take_of_lt hk, List.getElem?_drop, hb, ByteLog.getElem?_slice hlow hk,
      Nat.add_assoc, h.ring hb]
  · have hend := h.ringEnd
    rw [List.getElem?_take_eq_none (by omega), List.getElem?_eq_none]
    rw [ByteLog.length_slice hlow (by omega)]
    omega

/-- **A read succeeds exactly inside the retained range**, and then yields the bytes
of the log. -/
theorem Retains.readAt_eq (h : s.Retains log) {lsn : Lsn} {n : Nat}
    (hfit : lsn.raw.toNat + n < 2 ^ 64) :
    s.readAt lsn n =
      if s.startLsn.raw.toNat ≤ lsn.raw.toNat ∧ lsn.raw.toNat + n ≤ s.writeLsn.raw.toNat then
        .ok (log.slice lsn.raw.toNat n)
      else .error (.outOfRange lsn ⟨lsn.raw + UInt64.ofNat n⟩ s.startLsn s.writeLsn) := by
  have hstop : (lsn.raw + UInt64.ofNat n).toNat = lsn.raw.toNat + n := toNat_add_ofNat hfit
  have hseed := h.seed
  have hwrite := h.write
  unfold readAt
  simp only [Lsn.lt_iff_toNat, Lsn.le_iff_toNat, hstop]
  by_cases hin : s.startLsn.raw.toNat ≤ lsn.raw.toNat ∧ lsn.raw.toNat + n ≤ s.writeLsn.raw.toNat
  · rw [if_neg (by omega), if_pos hin]
    split
    · next hring =>
      have hoff : (lsn.raw - s.ringStart.raw).toNat = lsn.raw.toNat - s.ringStart.raw.toNat :=
        UInt64.toNat_sub_of_le _ _ (UInt64.le_iff_toNat_le.mpr hring.1)
      have hend := h.ringEnd
      rw [hoff, if_pos (Or.inr (by omega)), h.ring_slice (by omega) (by omega)]
      congr 2
      omega
    · have hread := s.readChunks_eq n lsn.raw (log.slice lsn.raw.toNat n)
      rw [ByteLog.length_slice (by omega) (by omega)] at hread
      rw [hread le_rfl hfit]
      intro k b hb
      have hk := (List.getElem?_eq_some_iff.mp hb).1
      rw [ByteLog.length_slice (by omega) (by omega)] at hk
      rw [ByteLog.getElem?_slice (by omega) hk] at hb
      exact h.bytes (by omega) hb
  · rw [if_pos (by omega), if_neg hin]

/-- **A read request gets the bytes of the log** below the commit position, from the
requested position or the retained floor on, unless they are not stored yet. -/
theorem Retains.handleRead_eq {n : Node} (h : n.storage.Retains log) (commitLsn : Lsn)
    (req : ReadRequest) : let start := max req.startLsn n.storage.startLsn
    let k := min (commitLsn.raw.toNat - start.raw.toNat) req.maxBytes.toNat
    n.handleRead commitLsn req =
      if k = 0 ∨ start.raw.toNat + k ≤ log.fin then
        .ok ⟨.ok, commitLsn, start, log.slice start.raw.toNat k⟩
      else .error (.outOfRange start ⟨start.raw + UInt64.ofNat k⟩ n.storage.startLsn
        n.storage.writeLsn) := by
  intro start k
  have hcommit := commitLsn.raw.toNat_lt
  have hfloor : n.storage.startLsn.raw.toNat ≤ start.raw.toNat :=
    Lsn.le_iff_toNat.mp (le_max_right _ _)
  show (if k = 0 then _ else _) = _
  by_cases hk : k = 0
  · rw [if_pos hk, if_pos (Or.inl hk), hk, ByteLog.slice, List.take_zero]
  · have hread := h.readAt_eq (show start.raw.toNat + k < 2 ^ 64 by omega)
    rw [h.write] at hread
    rw [if_neg hk, hread]
    by_cases hin : start.raw.toNat + k ≤ log.fin
    · rw [if_pos ⟨hfloor, hin⟩, if_pos (Or.inr hin)]
    · rw [if_neg (fun hc => hin hc.2), if_neg (fun hc => hc.elim hk hin)]

/-! ## Appends -/

variable {data : List UInt8}

theorem retains_new (cfg : WalConfig) : (new cfg).Retains ByteLog.blank where
  seed := le_rfl
  start_le_flush := le_rfl
  flush_le_write := le_rfl
  write := rfl
  bytes := fun _ h => absurd h (by simp [ByteLog.byteAt, ByteLog.blank])
  ringEnd := rfl
  ring := fun h => absurd h (by simp [new, openDir])

/-- The write loop touches neither the ring nor what is recorded as flushed. -/
theorem writeChunks_frame :
    ∀ (fuel : Nat) (s : WalStorage) (data : List UInt8),
      (writeChunks fuel s data).flushLsn = s.flushLsn ∧ (writeChunks fuel s data).ring = s.ring ∧
        (writeChunks fuel s data).ringStart = s.ringStart := by
  intro fuel
  induction fuel with
  | zero => exact fun s data => ⟨rfl, rfl, rfl⟩
  | succ fuel ih =>
    intro s data
    unfold writeChunks
    split
    · exact ⟨rfl, rfl, rfl⟩
    · exact ih _ _

theorem Retains.seeded (h : s.Retains log) (startLsn : Lsn) :
    (log.IsBlank → (s.seed startLsn).Retains ⟨startLsn.raw.toNat, []⟩ ∧
        (s.seed startLsn).writeLsn = startLsn) ∧
      (¬ log.IsBlank → s.seed startLsn = s) := by
  rw [seed_eq h.write (h.start_le_flush.trans h.flush_le_write) startLsn]
  refine ⟨?_, fun hblank => if_neg hblank⟩
  intro hblank
  have hring : s.ring = [] := by
    have hend := h.ringEnd
    rw [ByteLog.fin, hblank.1, hblank.2, List.length_nil] at hend
    exact List.length_eq_zero_iff.mp (by omega)
  rw [if_pos hblank]
  refine ⟨⟨le_rfl, le_rfl, le_rfl, rfl, ?_, ?_, ?_⟩, rfl⟩
  · intro p b _ hb
    simp [ByteLog.byteAt] at hb
  · show startLsn.raw.toNat + s.ring.length = startLsn.raw.toNat + 0
    rw [hring, List.length_nil]
  · intro k b hk
    have hk : s.ring[k]? = some b := hk
    simp [hring] at hk

/-- The ring grows at its end as much as it does not lose at its start. -/
theorem ringEnd_extendRing (hfit : s.ringStart.raw.toNat + s.ring.length + data.length < 2 ^ 64) :
    (s.extendRing data).ringStart.raw.toNat + (s.extendRing data).ring.length
      = s.ringStart.raw.toNat + s.ring.length + data.length := by
  have hpos : (s.extendRing data).ringStart.raw.toNat
      = s.ringStart.raw.toNat + ((s.ring ++ data).length - s.cfg.ringCapacity) :=
    toNat_add_ofNat (by rw [List.length_append]; omega)
  have hlen : (s.extendRing data).ring.length
      = (s.ring ++ data).length - ((s.ring ++ data).length - s.cfg.ringCapacity) := List.length_drop
  rw [hpos, hlen, List.length_append]
  omega

/-- The ring takes the bytes that the log has after its own end. -/
theorem ring_extendRing (hend : s.ringStart.raw.toNat + s.ring.length + data.length = log.fin)
    (hring : ∀ {k b}, s.ring[k]? = some b → log.byteAt (s.ringStart.raw.toNat + k) = some b)
    (hrun : log.HasRun (s.ringStart.raw.toNat + s.ring.length) data) (hfit : log.fin < 2 ^ 64) :
    (s.extendRing data).ringStart.raw.toNat + (s.extendRing data).ring.length = log.fin ∧
      ∀ {k b}, (s.extendRing data).ring[k]? = some b →
        log.byteAt ((s.extendRing data).ringStart.raw.toNat + k) = some b := by
  refine ⟨(ringEnd_extendRing (by omega)).trans hend, ?_⟩
  obtain ⟨evicted, hev⟩ : ∃ e, (s.ring ++ data).length - s.cfg.ringCapacity = e := ⟨_, rfl⟩
  have hevle : evicted ≤ s.ring.length + data.length := by
    rw [← hev, List.length_append]
    omega
  have hpos : (s.extendRing data).ringStart.raw.toNat = s.ringStart.raw.toNat + evicted := by
    simp only [extendRing, hev]
    exact toNat_add_ofNat (by omega)
  have hnew : (s.extendRing data).ring = (s.ring ++ data).drop evicted := by
    simp only [extendRing, hev]
  rw [hpos, hnew]
  intro k b hk
  rw [List.getElem?_drop] at hk
  by_cases hold : evicted + k < s.ring.length
  · rw [List.getElem?_append_left hold] at hk
    rw [Nat.add_assoc]
    exact hring hk
  · rw [List.getElem?_append_right (by omega)] at hk
    have hbyte := hrun _ b hk
    rw [show s.ringStart.raw.toNat + s.ring.length + (evicted + k - s.ring.length)
      = s.ringStart.raw.toNat + evicted + k by omega] at hbyte
    exact hbyte

/-- What the write loop and the ring do, once the log has a position. -/
theorem Retains.written (h : s.Retains log) (hfit : s.writeLsn.raw.toNat + data.length < 2 ^ 64) :
    ((writeChunks data.length s data).extendRing data).Retains ⟨log.seed, log.bytes ++ data⟩ := by
  have hw := wrote_writeChunks (s := s) (le_refl data.length) hfit
  obtain ⟨hflush, hring, hringStart⟩ := writeChunks_frame data.length s data
  obtain ⟨s', hs'⟩ : ∃ s', writeChunks data.length s data = s' := ⟨_, rfl⟩
  rw [hs'] at hw hflush hring hringStart ⊢
  have hwrite := h.write
  have hend := h.ringEnd
  have hringFin : s'.ringStart.raw.toNat + s'.ring.length + data.length
      = ByteLog.fin ⟨log.seed, log.bytes ++ data⟩ := by
    rw [hringStart, hring, hend, ByteLog.fin_extend]
  obtain ⟨hringEnd, hringBytes⟩ := ring_extendRing hringFin
    (by
      intro k b hk
      rw [hring] at hk
      rw [hringStart]
      exact ByteLog.byteAt_extend.mpr (Or.inl (h.ring hk)))
    (by
      rw [hringStart, hring, hend]
      exact ByteLog.hasRun_extend log data)
    (by rw [ByteLog.fin_extend]; omega)
  refine ⟨?_, ?_, ?_, ?_, ?_, hringEnd, hringBytes⟩
  · show log.seed ≤ s'.startLsn.raw.toNat
    rw [hw.start]
    exact h.seed
  · show s'.startLsn ≤ s'.flushLsn
    rw [hw.start, hflush]
    exact h.start_le_flush
  · show s'.flushLsn ≤ s'.writeLsn
    rw [hflush, Lsn.le_iff_toNat, hw.write]
    have hle := h.flush_le_write
    rw [Lsn.le_iff_toNat] at hle
    omega
  · show s'.writeLsn.raw.toNat = _
    rw [hw.write, ByteLog.fin_extend, hwrite]
  · intro p b hlow hb
    have hlow : s'.startLsn.raw.toNat ≤ p := hlow
    rw [hw.start] at hlow
    exact hw.bytes_extend hwrite h.bytes hlow hb

/-- **An append is an append to the log.** -/
theorem Retains.append_accepted {log' : ByteLog UInt8} (h : s.Retains log) {startLsn : Lsn}
    (hlog : log.append startLsn.raw.toNat data = some log') (hfit : log'.fin < 2 ^ 64) :
    ∃ s', s.append startLsn data = .ok s' ∧ s'.Retains log' := by
  obtain ⟨hblank, hseeded⟩ := h.seeded startLsn
  rw [ByteLog.fin_append hlog] at hfit
  have hcases : ∀ {s' : WalStorage} {log' : ByteLog UInt8}, s'.Retains log' →
      s'.writeLsn = startLsn →
      Retains (if data.isEmpty then s' else (writeChunks data.length s' data).extendRing data)
        ⟨log'.seed, log'.bytes ++ data⟩ := by
    intro s' log' h' hpos
    split
    · next hnil =>
      rw [List.isEmpty_iff.mp hnil, List.append_nil]
      exact h'
    · exact h'.written (by rw [hpos]; exact hfit)
  unfold ByteLog.append at hlog
  unfold WalStorage.append
  by_cases hb : log.IsBlank
  · obtain ⟨hr, hpos⟩ := hblank hb
    rw [if_pos hb] at hlog
    obtain rfl := Option.some.inj hlog
    refine ⟨_, ?_, hcases hr hpos⟩
    simp only [hpos, ne_eq, not_true_eq_false, if_false]
    split <;> rfl
  · rw [if_neg hb] at hlog
    rw [hseeded hb]
    split at hlog
    · next hs =>
      have hpos : s.writeLsn = startLsn := by
        refine Lsn.toNat_injective ?_
        show s.writeLsn.raw.toNat = startLsn.raw.toNat
        rw [hs, h.write]
      obtain rfl := Option.some.inj hlog
      refine ⟨_, ?_, hcases h hpos⟩
      simp only [hpos, ne_eq, not_true_eq_false, if_false]
      split <;> rfl
    · simp at hlog

theorem Retains.append_refused (h : s.Retains log) {startLsn : Lsn}
    (hlog : log.append startLsn.raw.toNat data = none) :
    s.append startLsn data = .error (.nonContiguous s.writeLsn startLsn) := by
  unfold ByteLog.append at hlog
  split at hlog
  · simp at hlog
  · next hb =>
    split at hlog
    · simp at hlog
    · next hs =>
      have hpos : startLsn ≠ s.writeLsn := by
        intro heq
        rw [heq] at hs
        exact hs h.write
      unfold WalStorage.append
      rw [(h.seeded startLsn).2 hb]
      simp only [ne_eq, hpos, not_false_eq_true, if_true]

theorem Retains.flush (h : s.Retains log) : s.flush.Retains log where
  seed := h.seed
  start_le_flush := h.start_le_flush.trans h.flush_le_write
  flush_le_write := le_refl s.writeLsn
  write := h.write
  bytes := h.bytes
  ringEnd := h.ringEnd
  ring := h.ring

/-! ## Recycling -/

/-- Recycling changes segment files only, and only the ones it goes over. -/
theorem foldl_removeSegment (l : List Nat) :
    ∀ (r : WalStorage × Nat), ∃ files synced : Segments,
      (l.foldl removeSegment r).1 = { r.1 with files := files, synced := synced } ∧
        ∀ i, i ∉ l → files i = r.1.files i ∧ synced i = r.1.synced i := by
  induction l with
  | nil => exact fun r => ⟨r.1.files, r.1.synced, rfl, fun _ _ => ⟨rfl, rfl⟩⟩
  | cons index l ih =>
    intro r
    rw [List.foldl_cons]
    obtain ⟨files, synced, heq, hkeep⟩ := ih (removeSegment r index)
    refine ⟨files, synced, ?_, ?_⟩
    · rw [heq]
      unfold removeSegment
      split <;> rfl
    · intro i hi
      rw [List.mem_cons, not_or] at hi
      rw [(hkeep i hi.2).1, (hkeep i hi.2).2]
      unfold removeSegment
      split
      · exact ⟨Function.update_of_ne hi.1 .., Function.update_of_ne hi.1 ..⟩
      · exact ⟨rfl, rfl⟩

/-- **What recycling does**: the start position moves up to the segment of the horizon,
if it was below, and the segments from there on are kept. -/
theorem removeSegmentsBefore_eq (s : WalStorage) (horizon : Lsn) :
    ∃ (start : Lsn) (files synced : Segments),
      (s.removeSegmentsBefore horizon).1
          = { s with startLsn := start, files := files, synced := synced } ∧
        s.startLsn ≤ start ∧
        (start = s.startLsn ∨
          start.raw.toNat = horizon.raw.toNat / s.cfg.segmentSize * s.cfg.segmentSize) ∧
        ∀ i, start.raw.toNat / s.cfg.segmentSize ≤ i →
          files i = s.files i ∧ synced i = s.synced i := by
  have hsize := s.cfg.segmentSize_pos
  unfold WalStorage.removeSegmentsBefore
  by_cases hlt : s.startLsn.raw.toNat / s.cfg.segmentSize < horizon.raw.toNat / s.cfg.segmentSize
  · obtain ⟨files, synced, heq, hkeep⟩ := foldl_removeSegment
      (List.range' (s.startLsn.raw.toNat / s.cfg.segmentSize)
        (horizon.raw.toNat / s.cfg.segmentSize - s.startLsn.raw.toNat / s.cfg.segmentSize)) (s, 0)
    have hmul := Nat.div_mul_le_self horizon.raw.toNat s.cfg.segmentSize
    have hbelow : s.startLsn.raw.toNat
        < horizon.raw.toNat / s.cfg.segmentSize * s.cfg.segmentSize :=
      (Nat.div_lt_iff_lt_mul hsize).mp hlt
    have hraw : (UInt64.ofNat (horizon.raw.toNat / s.cfg.segmentSize * s.cfg.segmentSize)).toNat
        = horizon.raw.toNat / s.cfg.segmentSize * s.cfg.segmentSize :=
      UInt64.toNat_ofNat_of_lt' (lt_of_le_of_lt hmul horizon.raw.toNat_lt)
    have hmoved : s.startLsn
        < (⟨UInt64.ofNat (horizon.raw.toNat / s.cfg.segmentSize * s.cfg.segmentSize)⟩ : Lsn) := by
      rw [Lsn.lt_iff_toNat, hraw]
      exact hbelow
    simp only [heq, if_pos hlt, if_pos hmoved]
    refine ⟨_, files, synced, rfl, hmoved.le, Or.inr hraw, ?_⟩
    intro i hi
    rw [hraw, Nat.mul_div_cancel _ hsize] at hi
    refine hkeep i ?_
    rw [List.mem_range'_1]
    omega
  · have hzero : horizon.raw.toNat / s.cfg.segmentSize - s.startLsn.raw.toNat / s.cfg.segmentSize = 0 := by
      omega
    simp only [hzero, if_neg hlt, List.range'_zero, List.foldl_nil, lt_irrefl, if_false]
    exact ⟨s.startLsn, s.files, s.synced, rfl, le_rfl, Or.inl rfl, fun _ _ => ⟨rfl, rfl⟩⟩

/-- Without the segments below `start` the store still keeps the log from there on. -/
theorem Retains.trim (h : s.Retains log) {start : Lsn} {files synced : Segments}
    {metaFile : Option (Lsn × Lsn)} (hle : s.startLsn ≤ start) (hflush : start ≤ s.flushLsn)
    (hkeep : ∀ i, start.raw.toNat / s.cfg.segmentSize ≤ i → files i = s.files i) :
    Retains { s with startLsn := start, files := files, synced := synced, metaFile := metaFile }
      log := by
  rw [Lsn.le_iff_toNat] at hle
  refine ⟨h.seed.trans hle, hflush, h.flush_le_write, h.write, ?_, h.ringEnd, h.ring⟩
  intro p b hlow hb
  show Segments.byteAt s.cfg.segmentSize files p = some b
  -- a byte that is kept lies in a segment that is kept
  rw [Segments.byteAt, hkeep _ (Nat.div_le_div_right hlow)]
  exact h.bytes (hle.trans hlow) hb

theorem Retains.removeSegmentsBefore (h : s.Retains log) {horizon : Lsn}
    (hle : horizon ≤ s.flushLsn) : (s.removeSegmentsBefore horizon).1.Retains log := by
  obtain ⟨start, files, synced, heq, hmoved, hstart, hkeep⟩ := s.removeSegmentsBefore_eq horizon
  rw [heq]
  refine h.trim hmoved ?_ fun i hi => (hkeep i hi).1
  rcases hstart with hsame | hfloor
  · rw [hsame]
    exact h.start_le_flush
  · rw [Lsn.le_iff_toNat] at hle ⊢
    rw [hfloor]
    exact (Nat.div_mul_le_self _ _).trans hle

end WalStorage

/-! ## Runs -/

inductive StorageAction where
  | append (startLsn : Lsn) (data : List UInt8)
  | flush
  | removeSegmentsBefore (horizon : Lsn)

/-- One call on the store; a refused append changes nothing. -/
def WalStorage.step (s : WalStorage) : StorageAction → WalStorage
  | .append startLsn data =>
    match s.append startLsn data with
    | .ok s' => s'
    | .error _ => s
  | .flush => s.flush
  | .removeSegmentsBefore horizon => (s.removeSegmentsBefore horizon).1

/-- The store after a sequence of calls on an empty directory. -/
def WalStorage.after (cfg : WalConfig) (acts : List StorageAction) : WalStorage :=
  run WalStorage.step (WalStorage.new cfg) acts

/-- What was appended: the byte log only knows about appends. -/
def appended (acts : List StorageAction) : ByteLog UInt8 :=
  run (fun log a =>
    match a with
    | .append startLsn data => (log.append startLsn.raw.toNat data).getD log
    | _ => log) ByteLog.blank acts

/-- Positions stay below `2^64`, and only flushed WAL is recycled. -/
def WalStorage.InBounds (s : WalStorage) : StorageAction → Prop
  | .append startLsn data => startLsn.raw.toNat + data.length < 2 ^ 64
  | .flush => True
  | .removeSegmentsBefore horizon => horizon ≤ s.flushLsn

instance (s : WalStorage) (a : StorageAction) : Decidable (s.InBounds a) := by
  cases a <;> unfold WalStorage.InBounds <;> infer_instance

theorem WalStorage.Retains.step {s : WalStorage} {pre : List StorageAction}
    (hr : s.Retains (appended pre)) {a : StorageAction}
    (hfit : (appended (pre ++ [a])).fin < 2 ^ 64)
    (hrecycle : ∀ horizon, a = .removeSegmentsBefore horizon → horizon ≤ s.flushLsn) :
    (s.step a).Retains (appended (pre ++ [a])) := by
  rw [appended, run_concat] at hfit ⊢
  cases a with
  | append startLsn data =>
    have hfit : (((appended pre).append startLsn.raw.toNat data).getD (appended pre)).fin < 2 ^ 64 :=
      hfit
    show WalStorage.Retains _ (((appended pre).append startLsn.raw.toNat data).getD (appended pre))
    simp only [WalStorage.step]
    cases hlog : (appended pre).append startLsn.raw.toNat data with
    | none =>
      rw [hr.append_refused hlog]
      exact hr
    | some log' =>
      rw [hlog] at hfit
      obtain ⟨s', hs', hr'⟩ := hr.append_accepted hlog hfit
      rw [hs']
      exact hr'
  | flush => exact hr.flush
  | removeSegmentsBefore horizon => exact hr.removeSegmentsBefore (hrecycle horizon rfl)

theorem WalStorage.InBounds.fin_lt {s : WalStorage} {pre : List StorageAction}
    (hr : s.Retains (appended pre)) {a : StorageAction} (ha : s.InBounds a) :
    (appended (pre ++ [a])).fin < 2 ^ 64 := by
  have hpre : (appended pre).fin < 2 ^ 64 := hr.write ▸ s.writeLsn.raw.toNat_lt
  rw [appended, run_concat]
  cases a with
  | append startLsn data =>
    show (((appended pre).append startLsn.raw.toNat data).getD (appended pre)).fin < 2 ^ 64
    cases hlog : (appended pre).append startLsn.raw.toNat data with
    | none => exact hpre
    | some log' =>
      rw [Option.getD_some, ByteLog.fin_append hlog]
      exact ha
  | flush => exact hpre
  | removeSegmentsBefore horizon => exact hpre

theorem WalStorage.retains_after (cfg : WalConfig) {acts : List StorageAction}
    (h : Along (fun pre a => (WalStorage.after cfg pre).InBounds a) acts) :
    (WalStorage.after cfg acts).Retains (appended acts) := by
  refine run_invariant (I := fun pre (s : WalStorage) => s.Retains (appended pre)) (retains_new cfg)
    ?_ acts h
  intro pre a _ ha hr
  refine hr.step (ha.fin_lt hr) ?_
  rintro horizon rfl
  exact ha

/-- **The segmented store refines a byte log.** In every run of appends, flushes and
recycling of flushed WAL, a read succeeds exactly inside the retained range and
then returns the appended bytes, and the positions are in order. -/
theorem readAt_refines_log (cfg : WalConfig) (acts : List StorageAction)
    (h : Along (fun pre a => (WalStorage.after cfg pre).InBounds a) acts) (lsn : Lsn) (n : Nat)
    (hfit : lsn.raw.toNat + n < 2 ^ 64) :
    let s := WalStorage.after cfg acts
    ((∃ bytes, s.readAt lsn n = .ok bytes) ↔
        s.startLsn.raw.toNat ≤ lsn.raw.toNat ∧ lsn.raw.toNat + n ≤ s.writeLsn.raw.toNat) ∧
      (∀ bytes, s.readAt lsn n = .ok bytes → bytes.length = n ∧
        ∀ k < n, bytes[k]? = (appended acts).byteAt (lsn.raw.toNat + k)) ∧
      s.startLsn ≤ s.flushLsn ∧ s.flushLsn ≤ s.writeLsn := by
  intro s
  have hr : s.Retains (appended acts) := WalStorage.retains_after cfg h
  have hseed := hr.seed
  have hwrite := hr.write
  have hread := hr.readAt_eq hfit
  refine ⟨?_, ?_, hr.start_le_flush, hr.flush_le_write⟩
  · constructor
    · rintro ⟨bytes, hb⟩
      by_contra hout
      rw [hread, if_neg hout] at hb
      simp at hb
    · intro hin
      exact ⟨_, hread.trans (if_pos hin)⟩
  · intro bytes hb
    rw [hread] at hb
    split at hb
    · next hin =>
      obtain rfl := ReadOutcome.ok.inj hb
      refine ⟨ByteLog.length_slice (by omega) (by omega), ?_⟩
      exact fun k hk => ByteLog.getElem?_slice (by omega) hk
    · simp at hb

/-- Seven bytes from position 2 on, of which the first segment is recycled and the
ring caches three. -/
def recycledRun : List StorageAction :=
  [.append 2 [1, 2, 3, 4, 5], .flush, .append 7 [6, 7], .removeSegmentsBefore 7]

/-- The last four bytes come from two segment files. -/
theorem readAt_refines_log_sample :
    (WalStorage.after ⟨4, 3, by decide⟩ recycledRun).readAt 5 4 = .ok [4, 5, 6, 7] ∧
      ∀ bytes, (WalStorage.after ⟨4, 3, by decide⟩ recycledRun).readAt 5 4 = .ok bytes →
        bytes.length = 4 ∧ ∀ k < 4, bytes[k]? = (appended recycledRun).byteAt (5 + k) :=
  ⟨by decide, (readAt_refines_log ⟨4, 3, by decide⟩ recycledRun (by decide) 5 4 (by decide)).2.1⟩

end AethelDB.Safekeeper
