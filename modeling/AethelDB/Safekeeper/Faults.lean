import AethelDB.Safekeeper.CrashRecovery

/-!
# The WAL store when file operations fail

`append` and `flush` of `safekeeper/src/storage.rs` with an error from any of their file
operations. The call returns the error and leaves the store as it is at that point, and
the process goes on with it.

A failed append has written the segments before the one that failed, and counted them in
`write_lsn`; the ring is extended at the end only. From then on the ring does not end at
`write_lsn`, and the fast path of `read_at` answers with bytes from further on, or
indexes past the end of the ring (`failed_append_shifts_ring`). `lost` counts the bytes
that the ring is behind. `reads_after_faults` says that reads are right exactly if it is
zero or the ring is empty.

A flush advances `flush_lsn` before it writes the metadata file, and the first append sets
it to its own position, before there is any metadata. Until a flush succeeds, `flush_lsn`
is then above what a reopened store has (`flush_ahead_of_disk`). `owed` is the state of
that debt, and `flush_recovered_iff` says that there is no other.
-/

namespace AethelDB.Safekeeper

open AethelDB.Lib

/-! ## The calls -/

/-- The operation that fails while a segment is written. -/
inductive SegmentFault where
  | openFile
  /-- The file is there by then, but empty. -/
  | setLen
  | seek
  /-- Of the bytes to be written, `n` get into the file, but not all. -/
  | write (n : Nat)
deriving DecidableEq

/-- The operation that fails in a flush. -/
inductive FlushFault where
  /-- Opening or syncing the dirty segment that has `n` before it. -/
  | sync (n : Nat)
  /-- Writing the temporary metadata file or renaming it into place. -/
  | writeMeta
deriving DecidableEq

structure FaultyStore where
  store : WalStorage
  /-- The segment whose handle is cached. -/
  openSeg : Option Nat
  /-- What was handed to the append that wrote it, up to the write position. -/
  log : ByteLog UInt8
  /-- Bytes that are counted as written, but never came to the ring. -/
  lost : Nat
  /-- The flush position was moved, and not recorded since. -/
  owed : Bool

namespace FaultyStore

def new (cfg : WalConfig) : FaultyStore := ⟨WalStorage.new cfg, none, ByteLog.blank, 0, false⟩

def setFile (c : FaultyStore) (index : Nat) (contents : List UInt8) : FaultyStore :=
  { c with store := { c.store with
      files := Function.update c.store.files index (some contents) } }

/-- Get the handle for a segment. A new file is preallocated; one that is there is not,
even if it is empty. -/
def appendSegment (c : FaultyStore) (index : Nat) (fault : Option SegmentFault) :
    FaultyStore × Bool :=
  if c.openSeg = some index then (c, true)
  else if fault = some .openFile then (c, false)
  else if (c.store.files index).isSome then ({ c with openSeg := some index }, true)
  else if fault = some .setLen then (c.setFile index [], false)
  else
    ({ c.setFile index (List.replicate c.store.cfg.segmentSize 0) with openSeg := some index }, true)

/-- The files after a write that got `bytes` out. -/
def writePart (c : FaultyStore) (bytes : List UInt8) : FaultyStore :=
  if bytes.isEmpty then c
  else { c with store := { c.store with files := (c.store.writeChunk bytes).files } }

/-- One round of the loop of `append`. -/
def writeSegment (c : FaultyStore) (chunk : List UInt8) (fault : Option SegmentFault) :
    FaultyStore × Bool :=
  let r := c.appendSegment (c.store.writeLsn.raw.toNat / c.store.cfg.segmentSize) fault
  if r.2 then
    match fault with
    | some .seek => (r.1, false)
    | some (.write n) => (r.1.writePart (chunk.dropLast.take n), false)
    | _ =>
      ({ r.1 with
          store := r.1.store.writeChunk chunk
          log := ⟨r.1.log.seed, r.1.log.bytes ++ chunk⟩ }, true)
  else r

/-- The loop of `append`, with what fails in each round. -/
def writeSegments :
    Nat → FaultyStore → List UInt8 → List (Option SegmentFault) → FaultyStore × Bool
  | 0, c, _, _ => (c, true)
  | fuel + 1, c, data, faults =>
    if data.isEmpty then (c, true)
    else
      let r := c.writeSegment (data.take c.store.space) (faults.headD none)
      if r.2 then writeSegments fuel r.1 (data.drop c.store.space) faults.tail else r

/-- Seed the log origin on the very first append. -/
def seed (c : FaultyStore) (startLsn : Lsn) : FaultyStore :=
  if !c.store.writeLsn.isValid && !c.store.startLsn.isValid then
    { c with
      store := c.store.seed startLsn
      log := ⟨startLsn.raw.toNat, []⟩
      owed := startLsn.isValid }
  else c

def append (c : FaultyStore) (startLsn : Lsn) (data : List UInt8)
    (faults : List (Option SegmentFault)) : FaultyStore × Bool :=
  let c := c.seed startLsn
  if startLsn ≠ c.store.writeLsn then (c, false)
  else if data.isEmpty then (c, true)
  else
    let r := writeSegments data.length c data faults
    if r.2 then ({ r.1 with store := r.1.store.extendRing data }, true)
    else ({ r.1 with lost := r.1.lost + (r.1.log.fin - c.log.fin) }, false)

def flush (c : FaultyStore) (fault : Option FlushFault) : FaultyStore × Bool :=
  let done : FaultyStore := { c with store := c.store.flush, owed := false }
  match fault with
  | none => (done, true)
  | some (.sync n) =>
    if n < c.store.dirtySegments.card then
      -- the segments before it, in ascending order, are synced
      ({ c with store := { c.store with
          synced := fun i => if i ∈ (c.store.dirtySegments.sort (· ≤ ·)).take n then c.store.files i
            else c.store.synced i } }, false)
    else (done, true)
  | some .writeMeta =>
    ({ c with
        store := { c.store.flush with metaFile := c.store.metaFile }
        owed := c.owed || decide (c.store.flushLsn ≠ c.store.writeLsn) }, false)

end FaultyStore

inductive FaultyAction where
  | append (startLsn : Lsn) (data : List UInt8) (faults : List (Option SegmentFault))
  | flush (fault : Option FlushFault)

/-- Appends end below `2^64`. -/
def FaultyAction.Fits : FaultyAction → Prop
  | .append startLsn data _ => startLsn.raw.toNat + data.length < 2 ^ 64
  | .flush _ => True

instance FaultyAction.decidableFits (a : FaultyAction) : Decidable a.Fits := by
  cases a <;> unfold FaultyAction.Fits <;> infer_instance

namespace FaultyStore

def step (c : FaultyStore) : FaultyAction → FaultyStore
  | .append startLsn data faults => (c.append startLsn data faults).1
  | .flush fault => (c.flush fault).1

def after (cfg : WalConfig) (acts : List FaultyAction) : FaultyStore := run step (new cfg) acts

/-! ## What a failed call leaves alone -/

variable {c : FaultyStore}

/-- The part of the state that writing segments has nothing to do with. -/
structure Frame (c c' : FaultyStore) : Prop where
  flush : c'.store.flushLsn = c.store.flushLsn
  ring : c'.store.ring = c.store.ring
  ringStart : c'.store.ringStart = c.store.ringStart
  metaFile : c'.store.metaFile = c.store.metaFile
  lost : c'.lost = c.lost
  owed : c'.owed = c.owed

theorem Frame.refl (c : FaultyStore) : Frame c c := ⟨rfl, rfl, rfl, rfl, rfl, rfl⟩

theorem Frame.trans {c' c'' : FaultyStore} (h : Frame c c') (h' : Frame c' c'') : Frame c c'' :=
  ⟨h'.flush.trans h.flush, h'.ring.trans h.ring, h'.ringStart.trans h.ringStart,
    h'.metaFile.trans h.metaFile, h'.lost.trans h.lost, h'.owed.trans h.owed⟩

/-- Getting a handle can only make a file that was not there. -/
theorem appendSegment_eq (c : FaultyStore) (index : Nat) (fault : Option SegmentFault) :
    ∃ (files : Segments) (openSeg : Option Nat),
      (c.appendSegment index fault).1
          = { c with store := { c.store with files := files }, openSeg := openSeg } ∧
        ∀ i, (c.store.files i).isSome → files i = c.store.files i := by
  have hnew : ∀ contents, (c.store.files index).isSome = false → ∀ i, (c.store.files i).isSome →
      Function.update c.store.files index contents i = c.store.files i := by
    intro contents hnone i hi
    refine Function.update_of_ne ?_ ..
    rintro rfl
    rw [hnone] at hi
    simp at hi
  unfold appendSegment
  split
  · exact ⟨c.store.files, c.openSeg, rfl, fun _ _ => rfl⟩
  · split
    · exact ⟨c.store.files, c.openSeg, rfl, fun _ _ => rfl⟩
    · split
      · exact ⟨c.store.files, some index, rfl, fun _ _ => rfl⟩
      · next hnone =>
        have hnone : (c.store.files index).isSome = false := by simpa using hnone
        split
        · exact ⟨_, c.openSeg, rfl, hnew _ hnone⟩
        · exact ⟨_, some index, rfl, hnew _ hnone⟩

theorem frame_appendSegment (c : FaultyStore) (index : Nat) (fault : Option SegmentFault) :
    Frame c (c.appendSegment index fault).1 := by
  obtain ⟨files, openSeg, heq, _⟩ := c.appendSegment_eq index fault
  rw [heq]
  exact ⟨rfl, rfl, rfl, rfl, rfl, rfl⟩

theorem frame_writeSegment (c : FaultyStore) (chunk : List UInt8) (fault : Option SegmentFault) :
    Frame c (c.writeSegment chunk fault).1 := by
  have hopen := c.frame_appendSegment (c.store.writeLsn.raw.toNat / c.store.cfg.segmentSize) fault
  simp only [writeSegment]
  split
  · split
    · exact hopen
    · unfold writePart
      split
      · exact hopen
      · exact hopen.trans ⟨rfl, rfl, rfl, rfl, rfl, rfl⟩
    · exact hopen.trans ⟨rfl, rfl, rfl, rfl, rfl, rfl⟩
  · exact hopen

theorem frame_writeSegments :
    ∀ (fuel : Nat) (c : FaultyStore) (data : List UInt8) (faults : List (Option SegmentFault)),
      Frame c (writeSegments fuel c data faults).1 := by
  intro fuel
  induction fuel with
  | zero => exact fun c _ _ => Frame.refl c
  | succ fuel ih =>
    intro c data faults
    have hround := c.frame_writeSegment (data.take c.store.space) (faults.headD none)
    simp only [writeSegments]
    split
    · exact Frame.refl c
    · split
      · exact hround.trans (ih _ _ _)
      · exact hround

/-! ## What the files hold -/

/-- Files may change past the write position. -/
theorem Logged.setFiles {s : WalStorage} {log : ByteLog UInt8} (h : WalProcess.Logged s log)
    {files : Segments} (hkeep : ∀ p b, p < s.writeLsn.raw.toNat →
      s.files.byteAt s.cfg.segmentSize p = some b → files.byteAt s.cfg.segmentSize p = some b) :
    WalProcess.Logged { s with files := files } log where
  start := h.start
  start_le_flush := h.start_le_flush
  flush_le_write := h.flush_le_write
  write := h.write
  bytes := by
    intro p b hb
    have hlt := (ByteLog.byteAt_isSome_iff.mp (Option.isSome_iff_exists.mpr ⟨b, hb⟩)).2
    exact hkeep p b (by rw [h.write]; exact hlt) (h.bytes hb)

theorem Logged.appendSegment (h : WalProcess.Logged c.store c.log) (index : Nat)
    (fault : Option SegmentFault) :
    WalProcess.Logged (c.appendSegment index fault).1.store c.log := by
  obtain ⟨files, openSeg, heq, hkeep⟩ := c.appendSegment_eq index fault
  rw [heq]
  refine Logged.setFiles h fun p b _ hb => ?_
  obtain ⟨f, hf, hfb⟩ := Option.bind_eq_some_iff.mp hb
  rw [Segments.byteAt, hkeep _ (by rw [hf]; rfl)]
  exact hb

theorem Logged.writePart (h : WalProcess.Logged c.store c.log) {bytes : List UInt8}
    (hspace : bytes.length ≤ c.store.space)
    (hfit : c.store.writeLsn.raw.toNat + bytes.length < 2 ^ 64) :
    WalProcess.Logged (c.writePart bytes).store c.log := by
  unfold FaultyStore.writePart
  split
  · exact h
  · exact Logged.setFiles h (WalStorage.wrote_writeChunk hspace hfit).outside

/-- A round either writes its chunk or leaves the log as it was. -/
theorem Logged.writeSegment (h : WalProcess.Logged c.store c.log) {chunk : List UInt8}
    (hspace : chunk.length ≤ c.store.space)
    (hfit : c.store.writeLsn.raw.toNat + chunk.length < 2 ^ 64) (fault : Option SegmentFault) :
    WalProcess.Logged (c.writeSegment chunk fault).1.store (c.writeSegment chunk fault).1.log ∧
      (c.writeSegment chunk fault).1.log
        = ⟨c.log.seed, c.log.bytes ++ if (c.writeSegment chunk fault).2 then chunk else []⟩ := by
  have hopen := Logged.appendSegment h (c.store.writeLsn.raw.toNat / c.store.cfg.segmentSize) fault
  obtain ⟨files, openSeg, heq, _⟩ :=
    c.appendSegment_eq (c.store.writeLsn.raw.toNat / c.store.cfg.segmentSize) fault
  simp only [FaultyStore.writeSegment]
  generalize c.appendSegment (c.store.writeLsn.raw.toNat / c.store.cfg.segmentSize) fault = r
    at hopen heq ⊢
  obtain ⟨c₁, ok⟩ := r
  obtain rfl : c₁ = { c with store := { c.store with files := files }, openSeg := openSeg } := heq
  cases ok with
  | false =>
    simp only [Bool.false_eq_true, if_false, List.append_nil]
    exact ⟨hopen, trivial⟩
  | true =>
    simp only [if_true]
    split
    · simp only [Bool.false_eq_true, if_false, List.append_nil]
      exact ⟨hopen, trivial⟩
    · next n =>
      have hlen : (chunk.dropLast.take n).length ≤ chunk.length := by
        rw [List.length_take, List.length_dropLast]
        omega
      have hpart := Logged.writePart hopen (hlen.trans hspace)
        (lt_of_le_of_lt (Nat.add_le_add_left hlen _) hfit)
      simp only [Bool.false_eq_true, if_false, List.append_nil]
      unfold FaultyStore.writePart at hpart ⊢
      split
      · exact ⟨hopen, rfl⟩
      · next hne =>
        rw [if_neg hne] at hpart
        exact ⟨hpart, rfl⟩
    · simp only [if_true]
      exact ⟨hopen.writeChunk (WalStorage.wrote_writeChunk hspace hfit), trivial⟩

/-- **The loop writes a beginning of `data`**, all of it if it succeeds. -/
theorem Logged.writeSegments :
    ∀ {fuel : Nat} {c : FaultyStore} (data : List UInt8) (faults : List (Option SegmentFault)),
      WalProcess.Logged c.store c.log → data.length ≤ fuel →
      c.store.writeLsn.raw.toNat + data.length < 2 ^ 64 →
      WalProcess.Logged (FaultyStore.writeSegments fuel c data faults).1.store
          (FaultyStore.writeSegments fuel c data faults).1.log ∧
        ∃ done, (FaultyStore.writeSegments fuel c data faults).1.log
            = ⟨c.log.seed, c.log.bytes ++ done⟩ ∧
          ((FaultyStore.writeSegments fuel c data faults).2 = true → done = data) := by
  intro fuel
  induction fuel with
  | zero =>
    intro c data faults h hfuel _
    obtain rfl : data = [] := List.length_eq_zero_iff.mp (by omega)
    exact ⟨h, [], by rw [List.append_nil]; rfl, fun _ => rfl⟩
  | succ fuel ih =>
    intro c data faults h hfuel hfit
    simp only [FaultyStore.writeSegments]
    split
    · next hnil =>
      exact ⟨h, [], by rw [List.append_nil], fun _ => (List.isEmpty_iff.mp hnil).symm⟩
    · next hne =>
      have hpos : 0 < data.length := List.length_pos_iff.mpr (by simpa using hne)
      have hspace := c.store.space_pos
      have htake : (data.take c.store.space).length ≤ c.store.space := by
        rw [List.length_take]
        omega
      have hsum : (data.take c.store.space).length + (data.drop c.store.space).length
          = data.length := by
        rw [List.length_take, List.length_drop]
        omega
      obtain ⟨hround, hlog⟩ := Logged.writeSegment h htake (by omega) (faults.headD none)
      obtain ⟨r, hr⟩ : ∃ r, c.writeSegment (data.take c.store.space) (faults.headD none) = r :=
        ⟨_, rfl⟩
      rw [hr] at hround hlog ⊢
      split
      · next hok =>
        rw [if_pos hok] at hlog
        have hwrite : r.1.store.writeLsn.raw.toNat
            = c.store.writeLsn.raw.toNat + (data.take c.store.space).length := by
          rw [hround.write, hlog, ByteLog.fin_extend, h.write]
        obtain ⟨hrest, done, hdone, hall⟩ := ih (data.drop c.store.space) faults.tail
          hround (by rw [List.length_drop]; omega) (by omega)
        refine ⟨hrest, data.take c.store.space ++ done, ?_, ?_⟩
        · rw [hdone, hlog, List.append_assoc]
        · intro hok
          rw [hall hok, List.take_append_drop]
      · next hok =>
        rw [if_neg hok] at hlog
        exact ⟨hround, [], hlog, fun hok' => absurd hok' hok⟩

/-! ## The invariant -/

/-- The ring ends `lost` bytes before the log; with none lost it is the end of the log. -/
structure Inv (c : FaultyStore) : Prop where
  logged : WalProcess.Logged c.store c.log
  ringEnd : c.store.ringStart.raw.toNat + c.store.ring.length + c.lost = c.log.fin
  ring : c.lost = 0 → ∀ {k b}, c.store.ring[k]? = some b →
    c.log.byteAt (c.store.ringStart.raw.toNat + k) = some b

theorem inv_new (cfg : WalConfig) : (new cfg).Inv where
  logged := (WalProcess.inv_new cfg).logged
  ringEnd := rfl
  ring := fun _ _ _ h => absurd h (by simp [new, WalStorage.new, WalStorage.openDir])

theorem Inv.seed (h : c.Inv) (startLsn : Lsn) : (c.seed startLsn).Inv := by
  unfold FaultyStore.seed
  split
  · next hblank =>
    have hzero : c.log.fin = 0 := by
      rw [Bool.and_eq_true, Bool.not_eq_true', WalStorage.isValid_eq_false_iff] at hblank
      rw [← h.logged.write]
      exact hblank.1
    have hend := h.ringEnd
    have hring : c.store.ring = [] := List.length_eq_zero_iff.mp (by omega)
    simp only [WalStorage.seed, if_pos hblank]
    refine ⟨⟨rfl, le_rfl, le_rfl, rfl, fun hb => absurd hb (by simp [ByteLog.byteAt])⟩, ?_, ?_⟩
    · show startLsn.raw.toNat + c.store.ring.length + c.lost = startLsn.raw.toNat + 0
      rw [hring, List.length_nil]
      omega
    · intro _ k b hk
      have hk : c.store.ring[k]? = some b := hk
      simp [hring] at hk
  · exact h

section Written

-- the loop has taken `c` to `c'`, and written `done`
variable {c c' : FaultyStore} {done : List UInt8}

theorem Inv.extendRing (h : c.Inv) (hframe : Frame c c')
    (hlogged : WalProcess.Logged c'.store c'.log)
    (hlog : c'.log = ⟨c.log.seed, c.log.bytes ++ done⟩) (hfit : c'.log.fin < 2 ^ 64) :
    Inv { c' with store := c'.store.extendRing done } := by
  have hend := h.ringEnd
  have hfin : c'.log.fin = c.log.fin + done.length := by rw [hlog, ByteLog.fin_extend]
  refine ⟨{ hlogged with }, ?_, ?_⟩
  · have hgrow : _ = c'.store.ringStart.raw.toNat + c'.store.ring.length + done.length :=
      WalStorage.ringEnd_extendRing (by rw [hframe.ringStart, hframe.ring]; omega)
    show (c'.store.extendRing done).ringStart.raw.toNat
      + (c'.store.extendRing done).ring.length + c'.lost = c'.log.fin
    rw [hgrow, hfin, hframe.ringStart, hframe.ring, hframe.lost]
    omega
  · intro hlost k b hk
    have hlost : c.lost = 0 := hframe.lost.symm.trans hlost
    refine (WalStorage.ring_extendRing ?_ ?_ ?_ hfit).2 hk
    · rw [hfin, hframe.ringStart, hframe.ring]
      omega
    · intro k b hk
      rw [hframe.ring] at hk
      rw [hframe.ringStart, hlog]
      exact ByteLog.byteAt_extend.mpr (Or.inl (h.ring hlost hk))
    · rw [hframe.ringStart, hframe.ring, hlog,
        show c.store.ringStart.raw.toNat + c.store.ring.length = c.log.fin by omega]
      exact ByteLog.hasRun_extend c.log done

theorem Inv.lose (h : c.Inv) (hframe : Frame c c') (hlogged : WalProcess.Logged c'.store c'.log)
    (hlog : c'.log = ⟨c.log.seed, c.log.bytes ++ done⟩) :
    Inv { c' with lost := c'.lost + (c'.log.fin - c.log.fin) } := by
  have hend := h.ringEnd
  have hfin : c'.log.fin = c.log.fin + done.length := by rw [hlog, ByteLog.fin_extend]
  refine ⟨hlogged, ?_, ?_⟩
  · show c'.store.ringStart.raw.toNat + c'.store.ring.length
      + (c'.lost + (c'.log.fin - c.log.fin)) = c'.log.fin
    rw [hfin, hframe.ringStart, hframe.ring, hframe.lost]
    omega
  · intro hlost k b hk
    have hlost : c'.lost + (c'.log.fin - c.log.fin) = 0 := hlost
    rw [hframe.lost] at hlost
    -- nothing was lost, so nothing was written either
    have hdone : done = [] := List.length_eq_zero_iff.mp (by omega)
    have hk : c'.store.ring[k]? = some b := hk
    show c'.log.byteAt (c'.store.ringStart.raw.toNat + k) = some b
    rw [hframe.ring] at hk
    rw [hframe.ringStart, hlog, hdone, List.append_nil]
    exact h.ring (by omega) hk

end Written

theorem Inv.append (h : c.Inv) {startLsn : Lsn} {data : List UInt8}
    (hfit : startLsn.raw.toNat + data.length < 2 ^ 64) (faults : List (Option SegmentFault)) :
    (c.append startLsn data faults).1.Inv := by
  have hseed := h.seed startLsn
  simp only [FaultyStore.append]
  obtain ⟨c₁, hc₁⟩ : ∃ c₁, c.seed startLsn = c₁ := ⟨_, rfl⟩
  rw [hc₁] at hseed ⊢
  split
  · exact hseed
  · next hpos =>
    have hpos : startLsn = c₁.store.writeLsn := not_not.mp hpos
    rw [hpos] at hfit
    split
    · exact hseed
    · obtain ⟨hlogged, done, hlog, hall⟩ := Logged.writeSegments data faults hseed.logged
        (le_refl data.length) hfit
      have hframe := frame_writeSegments data.length c₁ data faults
      split
      · next hok =>
        obtain rfl := hall hok
        refine hseed.extendRing hframe hlogged hlog ?_
        rw [hlog, ByteLog.fin_extend, ← hseed.logged.write]
        exact hfit
      · exact hseed.lose hframe hlogged hlog

theorem Inv.flush (h : c.Inv) (fault : Option FlushFault) : (c.flush fault).1.Inv := by
  have hfull : WalProcess.Logged c.store.flush c.log :=
    ⟨h.logged.start, h.logged.start_le_flush.trans h.logged.flush_le_write, le_rfl, h.logged.write,
      h.logged.bytes⟩
  simp only [FaultyStore.flush]
  split
  · exact ⟨hfull, h.ringEnd, h.ring⟩
  · split
    · exact ⟨{ h.logged with }, h.ringEnd, h.ring⟩
    · exact ⟨hfull, h.ringEnd, h.ring⟩
  · exact ⟨{ hfull with }, h.ringEnd, h.ring⟩

theorem Inv.step (h : c.Inv) {a : FaultyAction} (ha : a.Fits) : (c.step a).Inv := by
  cases a with
  | append startLsn data faults => exact h.append ha faults
  | flush fault => exact h.flush fault

theorem inv_after (cfg : WalConfig) {acts : List FaultyAction} (h : ∀ a ∈ acts, a.Fits) :
    (after cfg acts).Inv :=
  run_invariant (I := fun _ (c : FaultyStore) => c.Inv) (inv_new cfg)
    (fun _ _ _ ha hc => hc.step ha) acts (along_of_forall h)

/-! ## Reads -/

/-- No read panics, and one that succeeds yields what was handed to `append`. -/
def ReadsRight (c : FaultyStore) : Prop :=
  ∀ (lsn : Lsn) (n : Nat), lsn.raw.toNat + n < 2 ^ 64 →
    c.store.readAt lsn n ≠ .panicked ∧ ∀ bytes, c.store.readAt lsn n = .ok bytes →
      bytes.length = n ∧ ∀ k < n, bytes[k]? = c.log.byteAt (lsn.raw.toNat + k)

/-- The ring, if it holds anything, ends at the write position. -/
def RingAligned (c : FaultyStore) : Prop :=
  c.store.ring ≠ [] →
    c.store.ringStart.raw.toNat + c.store.ring.length = c.store.writeLsn.raw.toNat

/-- An empty ring is not looked at, wherever it starts. -/
theorem readAt_of_ring_nil {s : WalStorage} (hring : s.ring = []) (ringStart : Lsn) (lsn : Lsn)
    (n : Nat) : s.readAt lsn n = { s with ringStart := ringStart }.readAt lsn n := by
  have hchunks : ∀ fuel pos n, ({ s with ringStart := ringStart } : WalStorage).readChunks fuel pos n
      = s.readChunks fuel pos n := by
    intro fuel
    induction fuel with
    | zero => exact fun _ _ => rfl
    | succ fuel ih =>
      intro pos n
      simp only [WalStorage.readChunks, ih]
  simp only [WalStorage.readAt, hchunks]
  simp only [hring, List.isEmpty_nil, Bool.true_eq_false, and_false, if_false]

/-- Up to where the ring starts, if that is never looked at, the store retains its log. -/
theorem Inv.retains (h : c.Inv) (hc : c.store.ring = [] ∨ c.lost = 0) :
    ∃ s : WalStorage, s.Retains c.log ∧ ∀ lsn n, c.store.readAt lsn n = s.readAt lsn n := by
  have hl := h.logged
  rcases hc with hring | hlost
  · refine ⟨{ c.store with ringStart := c.store.writeLsn }, ?_, readAt_of_ring_nil hring _⟩
    refine ⟨hl.start.ge, hl.start_le_flush, hl.flush_le_write, hl.write, fun _ hb => hl.bytes hb,
      ?_, ?_⟩
    · show c.store.writeLsn.raw.toNat + c.store.ring.length = c.log.fin
      rw [hring, hl.write, List.length_nil, Nat.add_zero]
    · intro k b hk
      have hk : c.store.ring[k]? = some b := hk
      simp [hring] at hk
  · refine ⟨c.store, ?_, fun _ _ => rfl⟩
    exact ⟨hl.start.ge, hl.start_le_flush, hl.flush_le_write, hl.write, fun _ hb => hl.bytes hb,
      by rw [← h.ringEnd, hlost, Nat.add_zero], h.ring hlost⟩

theorem Inv.readsRight (h : c.Inv) (hc : c.store.ring = [] ∨ c.lost = 0) : c.ReadsRight := by
  obtain ⟨s, hretains, hread⟩ := h.retains hc
  have hseed := hretains.seed
  have hwrite := hretains.write
  intro lsn n hfit
  rw [hread, hretains.readAt_eq hfit]
  split
  · next hin =>
    refine ⟨by simp, ?_⟩
    intro bytes hb
    obtain rfl := ReadOutcome.ok.inj hb
    refine ⟨ByteLog.length_slice (by omega) (by omega), ?_⟩
    exact fun k hk => ByteLog.getElem?_slice (by omega) hk
  · exact ⟨by simp, fun _ hb => absurd hb (by simp)⟩

end FaultyStore

/-- **Reads after failed calls.** In every run of appends that end below `2^64` and flushes,
with any file operations failing, reads are right and the ring ends at the write
position exactly if the ring is empty or no failed append had written a segment. -/
theorem reads_after_faults (cfg : WalConfig) (acts : List FaultyAction)
    (hfit : ∀ a ∈ acts, a.Fits) :
    (FaultyStore.after cfg acts).ReadsRight ∧ (FaultyStore.after cfg acts).RingAligned ↔
      (FaultyStore.after cfg acts).store.ring = [] ∨ (FaultyStore.after cfg acts).lost = 0 := by
  have hinv := FaultyStore.inv_after cfg hfit
  have hend := hinv.ringEnd
  rw [← hinv.logged.write] at hend
  constructor
  · rintro ⟨_, halign⟩
    by_cases hring : (FaultyStore.after cfg acts).store.ring = []
    · exact Or.inl hring
    · have hat := halign hring
      exact Or.inr (by omega)
  · intro hc
    refine ⟨hinv.readsRight hc, fun hring => ?_⟩
    have hlost := hc.resolve_left hring
    omega

/-- Of two segments of eight bytes the second cannot be opened. The next append goes on
where the first segment ends. -/
def halfWritten : List FaultyAction :=
  [.append 4 [1, 2, 3, 4, 5, 6, 7, 8] [none, some .openFile], .append 8 [9, 9, 9, 9] []]

/-- An append that fails on its first segment, or gets only part of it out, and is then
repeated. -/
def retried : List FaultyAction :=
  [.append 4 [1, 2, 3, 4, 5, 6, 7, 8] [some .setLen], .append 4 [1, 2, 3, 4, 5, 6, 7, 8] [some (.write 2)],
    .append 4 [9, 9, 3, 4, 5, 6, 7, 8] [], .flush (some .writeMeta)]

theorem reads_after_faults_sample :
    (FaultyStore.after (WalConfig.small 4) retried).store.readAt 4 8
        = .ok [9, 9, 3, 4, 5, 6, 7, 8] ∧
      (FaultyStore.after (WalConfig.small 4) retried).ReadsRight := by
  refine ⟨by decide +kernel, ((reads_after_faults (WalConfig.small 4) retried (by decide)).mpr
    (Or.inr (by decide +kernel))).1⟩

/-- The ring is behind by the segment that was written: a read of that segment gets the
bytes of the next append, and a read of those panics. -/
theorem failed_append_shifts_ring :
    ¬ (FaultyStore.after (WalConfig.small 16) halfWritten).RingAligned ∧
      (FaultyStore.after (WalConfig.small 16) halfWritten).store.readAt 4 4 = .ok [9, 9, 9, 9] ∧
      (FaultyStore.after (WalConfig.small 16) halfWritten).log.slice 4 4 = [1, 2, 3, 4] ∧
      (FaultyStore.after (WalConfig.small 16) halfWritten).store.readAt 8 4 = .panicked ∧
      ¬ (FaultyStore.after (WalConfig.small 16) halfWritten).ReadsRight := by
  have hpanic : (FaultyStore.after (WalConfig.small 16) halfWritten).store.readAt 8 4 = .panicked := by
    decide +kernel
  refine ⟨fun h => ?_, by decide +kernel, by decide +kernel, hpanic, ?_⟩
  · exact absurd (h (by decide +kernel)) (by decide +kernel)
  · exact fun h => (h 8 4 (by decide)).1 hpanic

/-! ## The flush position on disk -/

namespace FaultyStore

variable {c : FaultyStore}

/-- The flush position that the directory would be opened with. -/
def recovered (c : FaultyStore) : Lsn := c.store.restart.flushLsn

/-- Beyond giving a store its position, an append changes nothing of what was flushed. -/
theorem append_flushed (c : FaultyStore) (startLsn : Lsn) (data : List UInt8)
    (faults : List (Option SegmentFault)) :
    let c' := (c.append startLsn data faults).1
    c'.store.flushLsn = (c.seed startLsn).store.flushLsn ∧ c'.recovered = c.recovered ∧
      c'.owed = (c.seed startLsn).owed := by
  have hmeta : (c.seed startLsn).store.metaFile = c.store.metaFile := by
    unfold seed WalStorage.seed
    split <;> rfl
  have hrec : ∀ c' : FaultyStore, c'.store.metaFile = c.store.metaFile →
      c'.recovered = c.recovered := by
    intro c' h
    show (c'.store.metaFile.getD _).2 = (c.store.metaFile.getD _).2
    rw [h]
  have hframe := frame_writeSegments data.length (c.seed startLsn) data faults
  simp only [append]
  split
  · exact ⟨rfl, hrec _ hmeta, rfl⟩
  · split
    · exact ⟨rfl, hrec _ hmeta, rfl⟩
    · split
      · exact ⟨hframe.flush, hrec _ (hframe.metaFile.trans hmeta), hframe.owed⟩
      · exact ⟨hframe.flush, hrec _ (hframe.metaFile.trans hmeta), hframe.owed⟩

theorem isValid_iff_pos {l : Lsn} : l.isValid = true ↔ Lsn.INVALID < l := by
  rw [← Bool.not_eq_false, WalStorage.isValid_eq_false_iff, Lsn.lt_iff_toNat]
  exact Nat.pos_iff_ne_zero.symm

/-- What is not owed is on disk. -/
def Settled (c : FaultyStore) : Prop := c.owed = false → c.store.flushLsn ≤ c.recovered

theorem Settled.step (h : c.Settled) (a : FaultyAction) : (c.step a).Settled := by
  cases a with
  | append startLsn data faults =>
    obtain ⟨hflush, hrec, howed⟩ := c.append_flushed startLsn data faults
    intro hpaid
    show (c.append startLsn data faults).1.store.flushLsn ≤ (c.append startLsn data faults).1.recovered
    have hpaid : (c.seed startLsn).owed = false := howed.symm.trans hpaid
    rw [hflush, hrec]
    unfold seed at hpaid ⊢
    split at hpaid
    · next hblank =>
      -- a store that gets position zero is still where an empty one is
      have hzero : startLsn = Lsn.INVALID := Lsn.toNat_injective
        (WalStorage.isValid_eq_false_iff.mp hpaid)
      simp only [if_pos hblank, WalStorage.seed, hzero]
      exact Lsn.INVALID_le _
    · next hblank =>
      rw [if_neg hblank]
      exact h hpaid
  | flush fault =>
    simp only [FaultyStore.step, flush]
    split
    · exact fun _ => le_rfl
    · split
      · exact h
      · exact fun _ => le_rfl
    · intro hpaid
      have hpaid : (c.owed || decide (c.store.flushLsn ≠ c.store.writeLsn)) = false := hpaid
      rw [Bool.or_eq_false_iff, decide_eq_false_iff_not, not_not] at hpaid
      show c.store.writeLsn ≤ c.recovered
      rw [← hpaid.2]
      exact h hpaid.1

/-- What is on disk is not ahead, and behind if something is owed. -/
structure Behind (c : FaultyStore) : Prop where
  le : c.recovered ≤ c.store.flushLsn
  lt : c.owed = true → c.recovered < c.store.flushLsn

theorem Behind.seed (h : c.Behind) (hinv : c.Inv) (startLsn : Lsn) : (c.seed startLsn).Behind := by
  unfold FaultyStore.seed
  split
  · next hblank =>
    -- nothing was ever flushed
    have hnone : c.recovered = Lsn.INVALID := by
      have hzero : c.store.writeLsn = Lsn.INVALID := by
        rw [Bool.and_eq_true, Bool.not_eq_true', WalStorage.isValid_eq_false_iff] at hblank
        exact Lsn.toNat_injective hblank.1
      have hle := h.le.trans hinv.logged.flush_le_write
      rw [hzero] at hle
      exact le_antisymm hle (Lsn.INVALID_le _)
    simp only [WalStorage.seed, if_pos hblank]
    refine ⟨?_, ?_⟩
    · show c.recovered ≤ startLsn
      rw [hnone]
      exact Lsn.INVALID_le _
    · intro hvalid
      show c.recovered < startLsn
      rw [hnone]
      exact isValid_iff_pos.mp hvalid
  · exact h

theorem Behind.step (h : c.Behind) (hinv : c.Inv) (a : FaultyAction) : (c.step a).Behind := by
  have hwrite := hinv.logged.flush_le_write
  cases a with
  | append startLsn data faults =>
    obtain ⟨hflush, hrec, howed⟩ := c.append_flushed startLsn data faults
    have hseed := h.seed hinv startLsn
    have hsame : (c.seed startLsn).recovered = c.recovered := by
      unfold FaultyStore.seed WalStorage.seed
      split <;> rfl
    refine ⟨?_, ?_⟩
    · show (c.append startLsn data faults).1.recovered ≤ (c.append startLsn data faults).1.store.flushLsn
      rw [hflush, hrec, ← hsame]
      exact hseed.le
    · intro how
      show (c.append startLsn data faults).1.recovered < (c.append startLsn data faults).1.store.flushLsn
      rw [hflush, hrec, ← hsame]
      exact hseed.lt (howed.symm.trans how)
  | flush fault =>
    have hdone : Behind { c with store := c.store.flush, owed := false } :=
      ⟨le_rfl, fun howed => absurd howed (by simp)⟩
    simp only [FaultyStore.step, flush]
    split
    · exact hdone
    · split
      · exact ⟨h.le, h.lt⟩
      · exact hdone
    · refine ⟨h.le.trans hwrite, ?_⟩
      intro howed
      have howed : (c.owed || decide (c.store.flushLsn ≠ c.store.writeLsn)) = true := howed
      rw [Bool.or_eq_true, decide_eq_true_iff] at howed
      show c.recovered < c.store.writeLsn
      rcases howed with howed | hmoved
      · exact lt_of_lt_of_le (h.lt howed) hwrite
      · exact lt_of_le_of_lt h.le (lt_of_le_of_ne hwrite hmoved)

end FaultyStore

/-- **When the flush position is durable.** After any run of appends and flushes with any
file operations failing, the flush position is on disk if nothing is owed: if a flush
has succeeded since the store was given a position other than zero, and since the last
flush that moved the position and failed to record it. As long as appends end below
`2^64` this is the only case. -/
theorem flush_recovered_iff (cfg : WalConfig) (acts : List FaultyAction) :
    ((FaultyStore.after cfg acts).owed = false →
        (FaultyStore.after cfg acts).store.flushLsn ≤ (FaultyStore.after cfg acts).recovered) ∧
      ((∀ a ∈ acts, a.Fits) →
        (FaultyStore.after cfg acts).store.flushLsn ≤ (FaultyStore.after cfg acts).recovered →
        (FaultyStore.after cfg acts).owed = false) := by
  refine ⟨?_, ?_⟩
  · exact run_invariant_always (I := FaultyStore.Settled) (fun _ => le_rfl)
      (fun _ a hc => hc.step a) acts
  · intro hfit hle
    have hboth : (FaultyStore.after cfg acts).Inv ∧ (FaultyStore.after cfg acts).Behind :=
      run_invariant (I := fun _ (c : FaultyStore) => c.Inv ∧ c.Behind)
        ⟨FaultyStore.inv_new cfg, le_rfl, fun howed => absurd howed (by simp [FaultyStore.new])⟩
        (fun _ a _ ha hc => ⟨hc.1.step ha, hc.2.step hc.1 a⟩) acts (along_of_forall hfit)
    by_contra howed
    exact absurd (hboth.2.lt (by simpa using howed)) (not_lt.mpr hle)

/-- The run from before, with a flush that succeeds at last. -/
def flushedAgain : List FaultyAction := retried ++ [.flush none]

theorem flush_recovered_iff_sample :
    (FaultyStore.after (WalConfig.small 4) flushedAgain).store.flushLsn = 12 ∧
      (FaultyStore.after (WalConfig.small 4) flushedAgain).store.flushLsn
        ≤ (FaultyStore.after (WalConfig.small 4) flushedAgain).recovered := by
  have hpaid : (FaultyStore.after (WalConfig.small 4) flushedAgain).owed = false := by
    decide +kernel
  exact ⟨by decide +kernel, (flush_recovered_iff (WalConfig.small 4) flushedAgain).1 hpaid⟩

/-- A flush that fails in writing the metadata has moved the flush position. And the
first append sets it before anything was flushed at all. -/
theorem flush_ahead_of_disk :
    ¬ (FaultyStore.after (WalConfig.small 4) retried).store.flushLsn
        ≤ (FaultyStore.after (WalConfig.small 4) retried).recovered ∧
      ¬ (FaultyStore.after (WalConfig.small 4) [.append 8 [1] []]).store.flushLsn
        ≤ (FaultyStore.after (WalConfig.small 4) [.append 8 [1] []]).recovered :=
  ⟨by decide +kernel, by decide +kernel⟩

end AethelDB.Safekeeper
