import AethelDB.Common.Basic
import AethelDB.Lib.ByteLog

/-!
# Durable WAL storage

`safekeeper/src/storage.rs`. WAL bytes are appended by LSN to fixed-size segment files
and to a bounded in-memory ring; `flush` fsyncs the segments touched since the
last flush and then records `(start_lsn, flush_lsn)` in a metadata file.

The data directory is part of the state, in two views: `files` is what the
process reads back, `synced` what has been fsynced and survives a restart, for
the segments; the metadata file is always written through. File operations
succeed, but for reads of segment files that are missing or too short. The cached
handle of the current segment has no effect of its own and is left out: segments
are recycled below the one that is written to next.

What the store is for is a byte log. `Holds` relates the two between calls, when
everything appended has been flushed, and `Holds.store` says that an append
followed by a flush is an append to the byte log: it is accepted in the same
cases, and the bytes end up durable (`Holds.durableByte_eq`).
-/

namespace AethelDB.Safekeeper

open AethelDB.Lib

/-- Configuration of a store. The source divides by the segment size. -/
structure WalConfig where
  segmentSize : Nat
  ringCapacity : Nat
  segmentSize_pos : 0 < segmentSize

theorem WalConfig.small_pos : 0 < 8 := Nat.zero_lt_succ 7

/-- Segments of eight bytes, for concrete runs. -/
def WalConfig.small (ringCapacity : Nat) : WalConfig := ⟨8, ringCapacity, small_pos⟩

/-- What can go wrong when a segment file is read: it is missing or too short. -/
inductive IoError where
  | notFound
  | unexpectedEof
deriving DecidableEq

def IoError.display : IoError → String
  | .notFound => "No such file or directory (os error 2)"
  | .unexpectedEof => "failed to fill whole buffer"

inductive StorageError where
  | nonContiguous (expected got : Lsn)
  | outOfRange (start stop lo hi : Lsn)
  | io (e : IoError)
deriving DecidableEq

def StorageError.display : StorageError → String
  | .nonContiguous expected got =>
    "non-contiguous append: expected start_lsn " ++ expected.display ++ ", got " ++ got.display
  | .outOfRange start stop lo hi =>
    "read range [" ++ start.display ++ ", " ++ stop.display ++ ") is outside stored range ["
      ++ lo.display ++ ", " ++ hi.display ++ ")"
  | .io e => e.display

/-- What a read comes to. The ring is indexed without a check of its own. -/
inductive ReadOutcome where
  | ok (bytes : List UInt8)
  | error (e : StorageError)
  | panicked
deriving DecidableEq

abbrev Segments := Nat → Option (List UInt8)

/-- The byte that segment files hold for an absolute position. -/
def Segments.byteAt (segmentSize : Nat) (files : Segments) (p : Nat) : Option UInt8 :=
  (files (p / segmentSize)).bind fun f => f[p % segmentSize]?

/-- A durable, segmented WAL log with an in-memory cache. -/
structure WalStorage where
  cfg : WalConfig
  startLsn : Lsn
  writeLsn : Lsn
  flushLsn : Lsn
  ring : List UInt8
  ringStart : Lsn
  dirtySegments : Finset Nat
  files : Segments
  synced : Segments
  /-- The metadata file: start and flush position. -/
  metaFile : Option (Lsn × Lsn)

namespace WalStorage

/-- Open a data directory: resume at the flush position of the metadata file. -/
def openDir (cfg : WalConfig) (segments : Segments) (metaFile : Option (Lsn × Lsn)) :
    WalStorage :=
  let positions := metaFile.getD (Lsn.INVALID, Lsn.INVALID)
  { cfg := cfg
    startLsn := positions.1
    writeLsn := positions.2
    flushLsn := positions.2
    ring := []
    ringStart := positions.2
    dirtySegments := ∅
    files := segments
    synced := segments
    metaFile := metaFile }

def new (cfg : WalConfig) : WalStorage := openDir cfg (fun _ => none) none

/-- The process ends and the directory is opened again. -/
def restart (s : WalStorage) : WalStorage := openDir s.cfg s.synced s.metaFile

/-- The contents of a segment for appending; a new file is preallocated. -/
def appendSegment (s : WalStorage) (index : Nat) : List UInt8 :=
  (s.files index).getD (List.replicate s.cfg.segmentSize 0)

/-- Room left in the segment that `writeLsn` is in. -/
def space (s : WalStorage) : Nat :=
  s.cfg.segmentSize - s.writeLsn.raw.toNat % s.cfg.segmentSize

/-- Write `bytes` into the segment that `writeLsn` is in. A file that was left too
short is filled up with zeros. -/
def writeChunk (s : WalStorage) (bytes : List UInt8) : WalStorage :=
  let pos := s.writeLsn.raw.toNat
  let index := pos / s.cfg.segmentSize
  let offset := pos % s.cfg.segmentSize
  { s with
    files := Function.update s.files index
      (some (copyAt ((s.appendSegment index).rightpad offset 0) offset bytes))
    dirtySegments := insert index s.dirtySegments
    writeLsn := ⟨s.writeLsn.raw + UInt64.ofNat bytes.length⟩ }

/-- The loop of `append`, one segment at a time. Every round takes at least one
byte, so as many rounds as there are bytes suffice. -/
def writeChunks : Nat → WalStorage → List UInt8 → WalStorage
  | 0, s, _ => s
  | fuel + 1, s, data =>
    if data.isEmpty then s
    else writeChunks fuel (s.writeChunk (data.take s.space)) (data.drop s.space)

/-- Extend the ring, evicting the oldest bytes past its capacity. -/
def extendRing (s : WalStorage) (data : List UInt8) : WalStorage :=
  let ring := s.ring ++ data
  let evicted := ring.length - s.cfg.ringCapacity
  { s with
    ring := ring.drop evicted
    ringStart := ⟨s.ringStart.raw + UInt64.ofNat evicted⟩ }

/-- Seed the log origin on the very first append. -/
def seed (s : WalStorage) (startLsn : Lsn) : WalStorage :=
  if !s.writeLsn.isValid && !s.startLsn.isValid then
    { s with
      startLsn := startLsn, writeLsn := startLsn, flushLsn := startLsn, ringStart := startLsn }
  else s

def append (s : WalStorage) (startLsn : Lsn) (data : List UInt8) :
    Except StorageError WalStorage :=
  let s := s.seed startLsn
  if startLsn ≠ s.writeLsn then .error (.nonContiguous s.writeLsn startLsn)
  else if data.isEmpty then .ok s
  else .ok ((writeChunks data.length s data).extendRing data)

def flush (s : WalStorage) : WalStorage :=
  { s with
    synced := fun i => if i ∈ s.dirtySegments then s.files i else s.synced i
    dirtySegments := ∅
    flushLsn := s.writeLsn
    metaFile := some (s.startLsn, s.writeLsn) }

/-- What both append handlers do under the storage lock. -/
def store (s : WalStorage) (startLsn : Lsn) (data : List UInt8) :
    Except StorageError WalStorage :=
  (s.append startLsn data).map flush

/-- The slow path of `read_at`: `n` bytes from `pos` on out of the segment files, one
segment at a time. -/
def readChunks (s : WalStorage) : Nat → UInt64 → Nat → Except IoError (List UInt8)
  | 0, _, _ => .ok []
  | fuel + 1, pos, n =>
    if n = 0 then .ok []
    else
      let offset := pos.toNat % s.cfg.segmentSize
      let k := min (s.cfg.segmentSize - offset) n
      match s.files (pos.toNat / s.cfg.segmentSize) with
      | none => .error .notFound
      | some f =>
        if offset + k ≤ f.length then
          (readChunks s fuel (pos + UInt64.ofNat k) (n - k)).map ((f.drop offset).take k ++ ·)
        else .error .unexpectedEof

/-- Read `n` bytes from `lsn` on, out of the ring if it has them all. -/
def readAt (s : WalStorage) (lsn : Lsn) (n : Nat) : ReadOutcome :=
  let stop : Lsn := ⟨lsn.raw + UInt64.ofNat n⟩
  if lsn < s.startLsn ∨ s.writeLsn < stop then
    .error (.outOfRange lsn stop s.startLsn s.writeLsn)
  else if s.ringStart ≤ lsn ∧ stop ≤ s.writeLsn ∧ s.ring.isEmpty = false then
    let offset := (lsn.raw - s.ringStart.raw).toNat
    if n = 0 ∨ offset + n ≤ s.ring.length then .ok ((s.ring.drop offset).take n) else .panicked
  else
    match s.readChunks n lsn.raw n with
    | .ok bytes => .ok bytes
    | .error e => .error (.io e)

/-- Delete a segment file if it exists, and count it. -/
def removeSegment (r : WalStorage × Nat) (index : Nat) : WalStorage × Nat :=
  if (r.1.files index).isSome then
    ({ r.1 with
        files := Function.update r.1.files index none
        synced := Function.update r.1.synced index none }, r.2 + 1)
  else r

/-- Recycle the segments that lie entirely below `horizon`, and advance `startLsn` to
the first that is kept. Returns how many there were. -/
def removeSegmentsBefore (s : WalStorage) (horizon : Lsn) : WalStorage × Nat :=
  let first := s.startLsn.raw.toNat / s.cfg.segmentSize
  let horizonSeg := horizon.raw.toNat / s.cfg.segmentSize
  let r := (List.range' first (horizonSeg - first)).foldl removeSegment (s, 0)
  let floor : Lsn :=
    if first < horizonSeg then ⟨UInt64.ofNat (horizonSeg * s.cfg.segmentSize)⟩ else s.startLsn
  ({ r.1 with startLsn := if s.startLsn < floor then floor else s.startLsn }, r.2)

/-- The byte at `p` that a reopened store would have. -/
def durableByte (s : WalStorage) (p : Nat) : Option UInt8 :=
  match s.metaFile with
  | none => none
  | some (lo, hi) =>
    if lo.raw.toNat ≤ p ∧ p < hi.raw.toNat then s.synced.byteAt s.cfg.segmentSize p else none

/-! ## The append loop -/

variable {s s' : WalStorage}

/-- Positions up to the end of the current segment stay in it. -/
theorem div_mod_of_chunk {size pos p : Nat} (hlow : pos ≤ p)
    (hhigh : p < pos + (size - pos % size)) :
    p / size = pos / size ∧ p % size = pos % size + (p - pos) := by
  have hpos := Nat.div_add_mod pos size
  refine (Nat.div_mod_unique (by omega)).mpr ⟨?_, by omega⟩
  rw [Nat.add_comm]
  omega

/-- `s'` is `s` with `data` written from `writeLsn` on, not yet flushed. -/
structure Wrote (s s' : WalStorage) (data : List UInt8) : Prop where
  write : s'.writeLsn.raw.toNat = s.writeLsn.raw.toNat + data.length
  inside : ∀ p, s.writeLsn.raw.toNat ≤ p → p < s.writeLsn.raw.toNat + data.length →
    s'.files.byteAt s.cfg.segmentSize p = data[p - s.writeLsn.raw.toNat]?
  outside : ∀ p b, p < s.writeLsn.raw.toNat →
    s.files.byteAt s.cfg.segmentSize p = some b → s'.files.byteAt s.cfg.segmentSize p = some b
  /-- A segment that changed is marked for the next flush. -/
  dirty : ∀ i, i ∉ s'.dirtySegments → s'.files i = s.files i ∧ i ∉ s.dirtySegments
  cfg : s'.cfg = s.cfg
  start : s'.startLsn = s.startLsn
  synced : s'.synced = s.synced

theorem Wrote.nil (s : WalStorage) : Wrote s s [] where
  write := rfl
  inside := fun p hlow hhigh => absurd hhigh (by simpa using hlow)
  outside := fun _ _ _ hb => hb
  dirty := fun _ hi => ⟨rfl, hi⟩
  cfg := rfl
  start := rfl
  synced := rfl

theorem Wrote.trans {s'' : WalStorage} {d d' : List UInt8} (h : Wrote s s' d)
    (h' : Wrote s' s'' d') : Wrote s s'' (d ++ d') where
  write := by
    rw [h'.write, h.write, List.length_append, Nat.add_assoc]
  inside := by
    intro p hlow hhigh
    rw [List.length_append] at hhigh
    have hw := h.write
    -- a byte of the first run lies below the second, which leaves it alone
    by_cases hp : p < s.writeLsn.raw.toNat + d.length
    · obtain ⟨x, hd⟩ : ∃ x, d[p - s.writeLsn.raw.toNat]? = some x :=
        ⟨_, List.getElem?_eq_getElem (by omega)⟩
      rw [List.getElem?_append_left (by omega), hd, ← h.cfg]
      refine h'.outside p _ (by omega) ?_
      rw [h.cfg, h.inside p hlow hp, hd]
    · rw [List.getElem?_append_right (by omega), ← h.cfg, h'.inside p (by omega) (by omega), hw]
      congr 1
      omega
  outside := by
    intro p b hp hb
    have hw := h.write
    rw [← h.cfg]
    refine h'.outside p b (by omega) ?_
    rw [h.cfg]
    exact h.outside p b hp hb
  dirty := by
    intro i hi
    obtain ⟨hf', hd'⟩ := h'.dirty i hi
    obtain ⟨hf, hd⟩ := h.dirty i hd'
    exact ⟨hf'.trans hf, hd⟩
  cfg := h'.cfg.trans h.cfg
  start := h'.start.trans h.start
  synced := h'.synced.trans h.synced

theorem toNat_add_ofNat {a : UInt64} {n : Nat} (h : a.toNat + n < 2 ^ 64) :
    (a + UInt64.ofNat n).toNat = a.toNat + n := by
  have hn : n < UInt64.size := by
    show n < 2 ^ 64
    omega
  rw [UInt64.toNat_add, UInt64.toNat_ofNat_of_lt' hn, Nat.mod_eq_of_lt h]

theorem wrote_writeChunk {bytes : List UInt8} (hspace : bytes.length ≤ s.space)
    (hfit : s.writeLsn.raw.toNat + bytes.length < 2 ^ 64) : Wrote s (s.writeChunk bytes) bytes := by
  have hsp : bytes.length ≤ s.cfg.segmentSize - s.writeLsn.raw.toNat % s.cfg.segmentSize := hspace
  have hlen : ∀ f : List UInt8, s.writeLsn.raw.toNat % s.cfg.segmentSize
      ≤ (f.rightpad (s.writeLsn.raw.toNat % s.cfg.segmentSize) 0).length := by
    intro f
    rw [List.length_rightpad]
    exact le_max_left _ _
  refine ⟨toNat_add_ofNat hfit, ?_, ?_, ?_, rfl, rfl, rfl⟩
  · intro p hlow hhigh
    have hend : p < s.writeLsn.raw.toNat
        + (s.cfg.segmentSize - s.writeLsn.raw.toNat % s.cfg.segmentSize) := by omega
    obtain ⟨hdiv, hmod⟩ := div_mod_of_chunk hlow hend
    unfold Segments.byteAt
    rw [hdiv, hmod]
    show (Function.update s.files _ _ _).bind _ = _
    rw [Function.update_self, Option.bind_some, getElem?_copyAt_inside (hlen _) (by omega)
      (by omega)]
    congr 1
    omega
  · intro p b hp hb
    unfold Segments.byteAt at hb ⊢
    show (Function.update s.files _ _ _).bind _ = _
    -- in the written segment itself only the part below the offset is older
    by_cases hi : p / s.cfg.segmentSize = s.writeLsn.raw.toNat / s.cfg.segmentSize
    · obtain ⟨f, hf, hfb⟩ := Option.bind_eq_some_iff.mp hb
      have hp1 := Nat.div_add_mod p s.cfg.segmentSize
      have hp2 := Nat.div_add_mod s.writeLsn.raw.toNat s.cfg.segmentSize
      rw [hi] at hp1 hf ⊢
      have hseg : s.appendSegment (s.writeLsn.raw.toNat / s.cfg.segmentSize) = f := by
        rw [appendSegment, hf]
        rfl
      rw [Function.update_self, Option.bind_some,
        getElem?_copyAt_outside (hlen _) (Or.inl (by omega)), hseg, List.rightpad,
        List.getElem?_append_left (List.getElem?_eq_some_iff.mp hfb).1]
      exact hfb
    · rw [Function.update_of_ne hi]
      exact hb
  · intro i hi
    have hi : i ∉ insert (s.writeLsn.raw.toNat / s.cfg.segmentSize) s.dirtySegments := hi
    rw [Finset.mem_insert, not_or] at hi
    exact ⟨Function.update_of_ne hi.1 .., hi.2⟩

theorem space_pos (s : WalStorage) : 0 < s.space := by
  have h := Nat.mod_lt s.writeLsn.raw.toNat s.cfg.segmentSize_pos
  unfold space
  omega

/-- **The loop writes all of `data`.** -/
theorem wrote_writeChunks :
    ∀ {fuel : Nat} {s : WalStorage} {data : List UInt8}, data.length ≤ fuel →
      s.writeLsn.raw.toNat + data.length < 2 ^ 64 → Wrote s (writeChunks fuel s data) data := by
  -- on the rounds left: a round with room for one byte at least shortens `data`
  intro fuel
  induction fuel with
  | zero =>
    intro s data hfuel _
    obtain rfl : data = [] := List.length_eq_zero_iff.mp (by omega)
    exact Wrote.nil s
  | succ fuel ih =>
    intro s data hfuel hfit
    unfold writeChunks
    split
    · next hnil =>
      rw [List.isEmpty_iff.mp hnil]
      exact Wrote.nil s
    · next hne =>
      have hpos : 0 < data.length := List.length_pos_iff.mpr (by simpa using hne)
      have hsp := s.space_pos
      have htake : (data.take s.space).length ≤ s.space := by
        rw [List.length_take]
        omega
      have hsum : (data.take s.space).length + (data.drop s.space).length = data.length := by
        rw [List.length_take, List.length_drop]
        omega
      have hchunk := wrote_writeChunk htake (by omega)
      have hrest : Wrote (s.writeChunk (data.take s.space))
          (writeChunks fuel (s.writeChunk (data.take s.space)) (data.drop s.space))
          (data.drop s.space) :=
        ih (by rw [List.length_drop]; omega) (by rw [hchunk.write]; omega)
      have hboth := hchunk.trans hrest
      rw [List.take_append_drop] at hboth
      exact hboth

/-! ## The store is a byte log -/

variable {log : ByteLog UInt8} {data : List UInt8}

/-- The positions and segment files are those of `log`, and all of it is synced. -/
structure Written (s : WalStorage) (log : ByteLog UInt8) : Prop where
  start : s.startLsn.raw.toNat = log.seed
  write : s.writeLsn.raw.toNat = log.fin
  clean : s.synced = s.files ∧ s.dirtySegments = ∅
  bytes : ∀ {p b}, log.byteAt p = some b → s.files.byteAt s.cfg.segmentSize p = some b

/-- Between two calls of `store`: `log` is written, and the metadata file says so. -/
structure Holds (s : WalStorage) (log : ByteLog UInt8) : Prop extends s.Written log where
  flush : s.flushLsn = s.writeLsn
  recorded : s.metaFile = some (s.startLsn, s.writeLsn) ∨ s.metaFile = none ∧ log.IsBlank

/-- **What is durable is the log.** -/
theorem Holds.durableByte_eq (h : s.Holds log) (p : Nat) : s.durableByte p = log.byteAt p := by
  unfold durableByte
  rcases h.recorded with hmeta | ⟨hmeta, hblank⟩
  · rw [hmeta]
    simp only [h.start, h.write]
    split
    · next hp =>
      obtain ⟨b, hb⟩ := Option.isSome_iff_exists.mp (ByteLog.byteAt_isSome_iff.mpr hp)
      rw [h.clean.1, h.bytes hb, hb]
    · next hp =>
      cases hb : log.byteAt p with
      | none => rfl
      | some b =>
        have hsome : (log.byteAt p).isSome = true := by rw [hb]; rfl
        exact absurd (ByteLog.byteAt_isSome_iff.mp hsome) hp
  · rw [hmeta, ByteLog.byteAt_of_blank hblank]

theorem holds_new (cfg : WalConfig) : (new cfg).Holds ByteLog.blank where
  start := rfl
  write := rfl
  clean := ⟨rfl, rfl⟩
  bytes := fun h => absurd h (by simp [ByteLog.byteAt, ByteLog.blank])
  flush := rfl
  recorded := Or.inr ⟨rfl, rfl, rfl⟩

theorem Holds.restart (h : s.Holds log) : s.restart.Holds log := by
  have hbytes : ∀ {p b}, log.byteAt p = some b →
      s.synced.byteAt s.cfg.segmentSize p = some b := by
    intro p b hb
    rw [h.clean.1]
    exact h.bytes hb
  rcases h.recorded with hmeta | ⟨hmeta, hblank⟩
  · have hstart : s.restart.startLsn = s.startLsn := by
      simp only [WalStorage.restart, openDir, hmeta, Option.getD_some]
    have hwrite : s.restart.writeLsn = s.writeLsn := by
      simp only [WalStorage.restart, openDir, hmeta, Option.getD_some]
    refine ⟨⟨?_, ?_, ⟨rfl, rfl⟩, hbytes⟩, rfl, Or.inl ?_⟩
    · rw [hstart]
      exact h.start
    · rw [hwrite]
      exact h.write
    · rw [hstart, hwrite]
      exact hmeta
  · have hpos : s.restart.startLsn = Lsn.INVALID ∧ s.restart.writeLsn = Lsn.INVALID := by
      simp only [WalStorage.restart, openDir, hmeta, Option.getD_none, and_self]
    refine ⟨⟨?_, ?_, ⟨rfl, rfl⟩, hbytes⟩, rfl, Or.inr ⟨hmeta, hblank⟩⟩
    · rw [hpos.1, hblank.1]
      rfl
    · rw [hpos.2, ByteLog.fin, hblank.1, hblank.2]
      rfl

/-- The files hold what they held and what was written at the end of the log. -/
theorem Wrote.bytes_extend (hw : Wrote s s' data) (hwrite : s.writeLsn.raw.toNat = log.fin)
    {lo : Nat} (hbytes : ∀ {p b}, lo ≤ p → log.byteAt p = some b →
      s.files.byteAt s.cfg.segmentSize p = some b) {p : Nat} {b : UInt8} (hlow : lo ≤ p)
    (hb : ByteLog.byteAt ⟨log.seed, log.bytes ++ data⟩ p = some b) :
    s'.files.byteAt s'.cfg.segmentSize p = some b := by
  rw [hw.cfg]
  rcases ByteLog.byteAt_extend.mp hb with hold | ⟨hle, hnew⟩
  · have hp := (ByteLog.byteAt_isSome_iff.mp (Option.isSome_iff_exists.mpr ⟨b, hold⟩)).2
    exact hw.outside p b (by rw [hwrite]; exact hp) (hbytes hlow hold)
  · have hlt := (List.getElem?_eq_some_iff.mp hnew).1
    rw [← hwrite] at hle hnew hlt
    rw [hw.inside p hle (by omega), hnew]

/-- Flushing what was written makes it part of the log. -/
theorem Written.flush (h : s.Written log) (hw : Wrote s s' data) :
    s'.flush.Holds ⟨log.seed, log.bytes ++ data⟩ := by
  -- a segment that is not synced again was not written either
  have hsync : s'.flush.synced = s'.files := by
    funext i
    show (if i ∈ s'.dirtySegments then s'.files i else s'.synced i) = s'.files i
    split
    · rfl
    · next hi => rw [hw.synced, h.clean.1, (hw.dirty i hi).1]
  refine ⟨⟨?_, ?_, ⟨hsync, rfl⟩, ?_⟩, rfl, Or.inl rfl⟩
  · show s'.startLsn.raw.toNat = log.seed
    rw [hw.start, h.start]
  · show s'.writeLsn.raw.toNat = log.seed + (log.bytes ++ data).length
    exact (hw.write.trans (by rw [h.write])).trans (ByteLog.fin_extend log data).symm
  · intro p b hb
    exact hw.bytes_extend h.write (fun _ hb => h.bytes hb) (Nat.zero_le p) hb

theorem isValid_eq_false_iff {l : Lsn} : l.isValid = false ↔ l.raw.toNat = 0 := by
  unfold Lsn.isValid
  rw [bne_eq_false_iff_eq, ← UInt64.toNat_inj]
  rfl

theorem seed_eq (hwrite : s.writeLsn.raw.toNat = log.fin) (hstart : s.startLsn ≤ s.writeLsn)
    (startLsn : Lsn) :
    s.seed startLsn = if log.IsBlank then
        { s with
          startLsn := startLsn, writeLsn := startLsn, flushLsn := startLsn, ringStart := startLsn }
      else s := by
  have hcond : (!s.writeLsn.isValid && !s.startLsn.isValid) = true ↔ log.IsBlank := by
    rw [Bool.and_eq_true, Bool.not_eq_true', Bool.not_eq_true', isValid_eq_false_iff,
      isValid_eq_false_iff, ByteLog.IsBlank, ← List.length_eq_zero_iff]
    rw [Lsn.le_iff_toNat] at hstart
    unfold ByteLog.fin at hwrite
    omega
  unfold seed
  exact if_congr hcond rfl rfl

/-- The append proper, once the log has a position. -/
theorem Written.append (h : s.Written log) (data : List UInt8)
    (hfit : s.writeLsn.raw.toNat + data.length < 2 ^ 64) :
    ∃ s', (if data.isEmpty then s else (writeChunks data.length s data).extendRing data) = s' ∧
      s'.flush.Holds ⟨log.seed, log.bytes ++ data⟩ := by
  refine ⟨_, rfl, ?_⟩
  split
  · next hnil =>
    rw [List.isEmpty_iff.mp hnil]
    exact h.flush (Wrote.nil s)
  · have hw := wrote_writeChunks le_rfl hfit
    exact h.flush ⟨hw.write, hw.inside, hw.outside, hw.dirty, hw.cfg, hw.start, hw.synced⟩

theorem Holds.seed (h : s.Holds log) (startLsn : Lsn) :
    (log.IsBlank → (s.seed startLsn).Written ⟨startLsn.raw.toNat, []⟩ ∧
        (s.seed startLsn).writeLsn = startLsn) ∧
      (¬ log.IsBlank → s.seed startLsn = s) := by
  have hstart : s.startLsn ≤ s.writeLsn := by
    rw [Lsn.le_iff_toNat, h.start, h.write]
    exact Nat.le_add_right _ _
  rw [seed_eq h.write hstart startLsn]
  refine ⟨?_, fun hblank => if_neg hblank⟩
  intro hblank
  rw [if_pos hblank]
  refine ⟨⟨rfl, rfl, h.clean, ?_⟩, rfl⟩
  intro p b hb
  simp [ByteLog.byteAt] at hb

/-- **An append and a flush are an append to the byte log**, accepted in the same
cases. -/
theorem Holds.store (h : s.Holds log) {startLsn : Lsn}
    (hfit : startLsn.raw.toNat + data.length < 2 ^ 64) :
    match log.append startLsn.raw.toNat data with
    | some log' => ∃ s', s.store startLsn data = .ok s' ∧ s'.Holds log'
    | none => s.store startLsn data = .error (.nonContiguous s.writeLsn startLsn) := by
  obtain ⟨hblank, hseeded⟩ := h.seed startLsn
  unfold ByteLog.append WalStorage.store WalStorage.append
  -- a blank log takes its first run anywhere, a seeded one at its end only
  by_cases hb : log.IsBlank
  · obtain ⟨hw, hpos⟩ := hblank hb
    obtain ⟨s', hs', hh⟩ := hw.append data (by rw [hpos]; exact hfit)
    rw [if_pos hb]
    refine ⟨s'.flush, ?_, hh⟩
    simp only [hpos, ne_eq, not_true_eq_false, if_false, ← hs']
    split <;> rfl
  · rw [if_neg hb, hseeded hb]
    by_cases hs : startLsn.raw.toNat = log.fin
    · have hpos : startLsn = s.writeLsn := by
        refine Lsn.toNat_injective ?_
        show startLsn.raw.toNat = s.writeLsn.raw.toNat
        rw [hs, h.write]
      obtain ⟨s', hs', hh⟩ := h.toWritten.append data (by rw [← hpos]; exact hfit)
      rw [if_pos hs]
      refine ⟨s'.flush, ?_, hh⟩
      simp only [← hpos, ne_eq, not_true_eq_false, if_false, ← hs']
      split <;> rfl
    · have hpos : startLsn ≠ s.writeLsn := by
        intro heq
        rw [heq] at hs
        exact hs h.write
      rw [if_neg hs]
      simp only [ne_eq, hpos, not_false_eq_true, if_true]
      rfl

end WalStorage

end AethelDB.Safekeeper
