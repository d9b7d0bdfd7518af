import AethelDB.Safekeeper.ReadBack

/-!
# Crash recovery of the WAL store

`append` and `flush` of `safekeeper/src/storage.rs` file operation by file operation:
an append writes one segment after the other, a flush fsyncs the segments touched
since the last one, writes the metadata to a temporary file and renames it into
place. The machine ends at any point in between, and the directory is opened again.

Of the segment files a crash leaves what was fsynced and not written to since;
anything may have become of the rest, down to files that are missing or short
(`Survives`). A completed rename survives.

Next to the store goes its history: the byte log of what was appended, cut back at
a crash to the reopened flush position, the value of the last flush that returned
and the write position of the last one attempted. `Inv` relates them. It rests on
one fact about the order of operations: the metadata file never speaks of bytes
that are not synced. What is left in the segment files past the flush position is
not part of the log, and is overwritten before `write_lsn` passes it.

A position that runs past `2^64` breaks this (`attempt_below_recovered`).
-/

namespace AethelDB.Safekeeper

open AethelDB.Lib

/-! ## The process and its disk -/

/-- Where the process is between two file operations. -/
inductive Phase where
  | idle
  /-- In an append that has written `done`, with `rest` still to be written. -/
  | appending (done rest : List UInt8)
  /-- In a flush, with `todo` still to be fsynced. -/
  | syncing (todo : Finset Nat)
  /-- In a flush, before the metadata file is renamed into place. -/
  | recording
  /-- In a flush, after that. -/
  | returning

structure WalProcess where
  store : WalStorage
  phase : Phase
  /-- What was appended, less what crashes have cut off. -/
  log : ByteLog UInt8
  /-- What the last flush returned. -/
  returned : Lsn
  /-- The write position at the last attempt to flush. -/
  attempt : Lsn

inductive ProcessAction where
  | append (startLsn : Lsn) (data : List UInt8)
  /-- The next segment of an append. -/
  | write
  | flush
  /-- The next fsync of a flush; after the last one the metadata is written. -/
  | sync
  | rename
  | finish
  /-- The machine stops, leaves `segments` on its disk, and the store is reopened. -/
  | crash (segments : Segments)

namespace WalProcess

def new (cfg : WalConfig) : WalProcess :=
  ⟨WalStorage.new cfg, .idle, ByteLog.blank, Lsn.INVALID, Lsn.INVALID⟩

/-- The log once an append has come past its checks. -/
def seedLog (log : ByteLog UInt8) (startLsn : Lsn) : ByteLog UInt8 :=
  if log.IsBlank then ⟨startLsn.raw.toNat, []⟩ else log

/-- The store that a crash leaving `segments` comes back with. -/
def reopened (c : WalProcess) (segments : Segments) : WalStorage :=
  WalStorage.openDir c.store.cfg segments c.store.metaFile

def step (c : WalProcess) : ProcessAction → WalProcess
  | .append startLsn data =>
    match c.phase with
    | .idle =>
      let s := c.store.seed startLsn
      if startLsn ≠ s.writeLsn then c
      else
        { c with
          store := s
          log := seedLog c.log startLsn
          phase := if data.isEmpty then .idle else .appending [] data }
    | _ => c
  | .write =>
    match c.phase with
    | .appending done rest =>
      let chunk := rest.take c.store.space
      let s := c.store.writeChunk chunk
      let rest := rest.drop c.store.space
      { c with
        store := if rest.isEmpty then s.extendRing (done ++ chunk) else s
        log := ⟨c.log.seed, c.log.bytes ++ chunk⟩
        phase := if rest.isEmpty then .idle else .appending (done ++ chunk) rest }
    | _ => c
  | .flush =>
    match c.phase with
    | .idle =>
      { c with phase := .syncing c.store.dirtySegments, attempt := c.store.writeLsn }
    | _ => c
  | .sync =>
    match c.phase with
    | .syncing todo =>
      if h : todo.Nonempty then
        let index := todo.min' h
        { c with
          store := { c.store with
            synced := Function.update c.store.synced index (c.store.files index) }
          phase := .syncing (todo.erase index) }
      else
        { c with
          store := { c.store with dirtySegments := ∅, flushLsn := c.store.writeLsn }
          phase := .recording }
    | _ => c
  | .rename =>
    match c.phase with
    | .recording =>
      { c with
        store := { c.store with metaFile := some (c.store.startLsn, c.store.flushLsn) }
        phase := .returning }
    | _ => c
  | .finish =>
    match c.phase with
    | .returning => { c with phase := .idle, returned := c.store.flushLsn }
    | _ => c
  | .crash segments =>
    let s := c.reopened segments
    { c with
      store := s
      phase := .idle
      log := c.log.cut s.startLsn.raw.toNat (s.flushLsn.raw.toNat - s.startLsn.raw.toNat) }

def after (cfg : WalConfig) (acts : List ProcessAction) : WalProcess := run step (new cfg) acts

/-- What was fsynced and not written to since is still there. -/
def Survives (s : WalStorage) (segments : Segments) : Prop :=
  ∀ p b, s.synced.byteAt s.cfg.segmentSize p = some b →
    s.files.byteAt s.cfg.segmentSize p = some b → segments.byteAt s.cfg.segmentSize p = some b

/-- Appends end below `2^64`, and crashes leave what they have to. -/
def Allowed (c : WalProcess) : ProcessAction → Prop
  | .append startLsn data => startLsn.raw.toNat + data.length < 2 ^ 64
  | .crash segments => Survives c.store segments
  | _ => True

/-! ## The invariant -/

variable {c : WalProcess} {log : ByteLog UInt8} {s : WalStorage}

/-- What an append in progress has written so far. -/
def pending (c : WalProcess) : List UInt8 :=
  match c.phase with
  | .appending done _ => done
  | _ => []

/-- The segments whose latest contents may not be synced. -/
def unsynced (c : WalProcess) : Finset Nat :=
  match c.phase with
  | .syncing todo => todo
  | _ => c.store.dirtySegments

/-- The positions that the metadata file records. -/
def recorded (s : WalStorage) : Lsn × Lsn := s.metaFile.getD (Lsn.INVALID, Lsn.INVALID)

/-- What each phase knows. -/
def PhaseOk (c : WalProcess) : Prop :=
  match c.phase with
  | .idle => True
  | .appending _ rest => rest ≠ [] ∧ c.store.writeLsn.raw.toNat + rest.length < 2 ^ 64
  | .syncing _ => c.attempt = c.store.writeLsn
  | .recording => c.attempt = c.store.writeLsn ∧ c.store.flushLsn = c.store.writeLsn ∧
      c.store.dirtySegments = ∅
  | .returning => c.attempt = c.store.writeLsn ∧ c.store.flushLsn = c.store.writeLsn ∧
      c.store.metaFile = some (c.store.startLsn, c.store.flushLsn)

/-- The positions and segment files are those of the log. -/
structure Logged (s : WalStorage) (log : ByteLog UInt8) : Prop where
  start : s.startLsn.raw.toNat = log.seed
  start_le_flush : s.startLsn ≤ s.flushLsn
  flush_le_write : s.flushLsn ≤ s.writeLsn
  write : s.writeLsn.raw.toNat = log.fin
  bytes : ∀ {p b}, log.byteAt p = some b → s.files.byteAt s.cfg.segmentSize p = some b

/-- The ring is the end of the log, but for the bytes `pending`. -/
structure Cached (s : WalStorage) (log : ByteLog UInt8) (pending : List UInt8) : Prop where
  fin : s.ringStart.raw.toNat + s.ring.length + pending.length = log.fin
  ring : ∀ {k b}, s.ring[k]? = some b → log.byteAt (s.ringStart.raw.toNat + k) = some b
  run : log.HasRun (s.ringStart.raw.toNat + s.ring.length) pending

/-- The metadata file speaks of the log or of nothing, and of synced bytes only. -/
structure Recorded (s : WalStorage) (log : ByteLog UInt8) : Prop where
  range : (recorded s).1 = s.startLsn ∧ (recorded s).1 ≤ (recorded s).2 ∧
      (recorded s).2 ≤ s.writeLsn ∨ recorded s = (Lsn.INVALID, Lsn.INVALID)
  synced : ∀ {p b}, p < (recorded s).2.raw.toNat → log.byteAt p = some b →
    s.synced.byteAt s.cfg.segmentSize p = some b

structure Inv (c : WalProcess) : Prop where
  logged : Logged c.store c.log
  cached : Cached c.store c.log c.pending
  clean : ∀ i, i ∉ c.unsynced → c.store.synced i = c.store.files i
  metadata : Recorded c.store c.log
  returned_le : c.returned ≤ (recorded c.store).2
  le_attempt : (recorded c.store).2 ≤ c.attempt
  phase : c.PhaseOk

theorem inv_new (cfg : WalConfig) : (new cfg).Inv where
  logged := ⟨rfl, le_rfl, le_rfl, rfl, fun h => absurd h (by simp [new, ByteLog.byteAt, ByteLog.blank])⟩
  cached := ⟨rfl, fun h => absurd h (by simp [new, WalStorage.new, WalStorage.openDir]),
    fun k b h => absurd h (by simp [new, pending])⟩
  clean := fun _ _ => rfl
  metadata := ⟨Or.inr rfl, fun h => absurd h (Nat.not_lt_zero _)⟩
  returned_le := le_rfl
  le_attempt := le_rfl
  phase := trivial

/-- Between calls the store retains the log. -/
theorem Inv.retains (h : c.Inv) (hidle : c.phase = .idle) : c.store.Retains c.log := by
  have hpending : c.pending = [] := by simp only [pending, hidle]
  have hcached := h.cached
  rw [hpending] at hcached
  exact ⟨h.logged.start.symm.le, h.logged.start_le_flush, h.logged.flush_le_write, h.logged.write,
    fun _ hb => h.logged.bytes hb, hcached.fin, hcached.ring⟩

theorem Recorded.le_write (h : Recorded s log) : (recorded s).2 ≤ s.writeLsn := by
  rcases h.range with ⟨_, _, hle⟩ | hnone
  · exact hle
  · rw [hnone]
    exact Lsn.INVALID_le _

/-! ## The steps -/

/-- What is written at the write position is what the log is extended by. -/
theorem Logged.writeChunk (h : Logged s log) {chunk : List UInt8}
    (hw : WalStorage.Wrote s (s.writeChunk chunk) chunk) :
    Logged (s.writeChunk chunk) ⟨log.seed, log.bytes ++ chunk⟩ := by
  refine ⟨h.start, h.start_le_flush, ?_, by rw [hw.write, h.write, ByteLog.fin_extend], ?_⟩
  · rw [Lsn.le_iff_toNat, hw.write]
    exact (Lsn.le_iff_toNat.mp h.flush_le_write).trans (Nat.le_add_right _ _)
  · exact fun hb => hw.bytes_extend h.write (fun _ hb => h.bytes hb) (Nat.zero_le _) hb

theorem Inv.seed (h : c.Inv) (hidle : c.phase = .idle) (startLsn : Lsn) :
    Inv { c with store := c.store.seed startLsn, log := seedLog c.log startLsn } := by
  have hle := h.logged.start_le_flush.trans h.logged.flush_le_write
  rw [WalStorage.seed_eq h.logged.write hle, seedLog]
  by_cases hblank : c.log.IsBlank
  · rw [if_pos hblank, if_pos hblank]
    have hfin : c.log.fin = 0 := by rw [ByteLog.fin, hblank.1, hblank.2, List.length_nil]
    have hpending : c.pending = [] := by simp only [pending, hidle]
    have hring : c.store.ring = [] := by
      have hend := h.cached.fin
      exact List.length_eq_zero_iff.mp (by omega)
    -- nothing was recorded about a store without a position
    have hnone : recorded c.store = (Lsn.INVALID, Lsn.INVALID) := by
      rcases h.metadata.range with ⟨_, hlo, hhi⟩ | hnone
      · have hwrite := h.logged.write
        rw [Lsn.le_iff_toNat] at hlo hhi
        refine Prod.ext (Lsn.toNat_injective ?_) (Lsn.toNat_injective ?_)
        · show (recorded c.store).1.raw.toNat = 0
          omega
        · show (recorded c.store).2.raw.toNat = 0
          omega
      · exact hnone
    have hphase : ∀ (s : WalStorage) (log : ByteLog UInt8),
        PhaseOk { c with store := s, log := log } := by
      intro s log
      simp only [PhaseOk, hidle]
    refine ⟨⟨rfl, le_rfl, le_rfl, rfl, ?_⟩, ⟨?_, ?_, ?_⟩, h.clean, ⟨Or.inr hnone, ?_⟩, h.returned_le,
      h.le_attempt, hphase _ _⟩
    · exact fun hb => absurd hb (by simp [ByteLog.byteAt])
    · show startLsn.raw.toNat + c.store.ring.length + c.pending.length = startLsn.raw.toNat + 0
      rw [hring, hpending]
      rfl
    · intro k b hk
      have hk : c.store.ring[k]? = some b := hk
      simp [hring] at hk
    · intro k b hk
      have hk : c.pending[k]? = some b := hk
      simp [hpending] at hk
    · exact fun _ hb => absurd hb (by simp [ByteLog.byteAt])
  · rw [if_neg hblank, if_neg hblank]
    exact h

theorem Inv.append (h : c.Inv) (hidle : c.phase = .idle) {startLsn : Lsn} {data : List UInt8}
    (hfit : startLsn.raw.toNat + data.length < 2 ^ 64) : (c.step (.append startLsn data)).Inv := by
  have hseed := h.seed hidle startLsn
  have hcached := hseed.cached
  have hclean := hseed.clean
  simp only [pending, hidle] at hcached
  simp only [unsynced, hidle] at hclean
  simp only [step, hidle]
  split
  · exact h
  · next hpos =>
    have hpos : startLsn = (c.store.seed startLsn).writeLsn := not_not.mp hpos
    split
    · exact ⟨hseed.logged, hcached, hclean, hseed.metadata, hseed.returned_le, hseed.le_attempt,
        trivial⟩
    · next hne =>
      refine ⟨hseed.logged, hcached, hclean, hseed.metadata, hseed.returned_le, hseed.le_attempt,
        by simpa using hne, ?_⟩
      show (c.store.seed startLsn).writeLsn.raw.toNat + data.length < 2 ^ 64
      rw [← hpos]
      exact hfit

theorem Inv.write (h : c.Inv) {done rest : List UInt8} (hphase : c.phase = .appending done rest) :
    (c.step .write).Inv := by
  have hcached := h.cached
  have hclean := h.clean
  have hok := h.phase
  simp only [pending, hphase] at hcached
  simp only [unsynced, hphase] at hclean
  simp only [PhaseOk, hphase] at hok
  obtain ⟨hne, hfit⟩ := hok
  obtain ⟨chunk, hchunk⟩ : ∃ chunk, rest.take c.store.space = chunk := ⟨_, rfl⟩
  have hlen : chunk.length ≤ c.store.space ∧
      chunk.length + (rest.drop c.store.space).length = rest.length := by
    rw [← hchunk, List.length_take, List.length_drop]
    omega
  have hw := WalStorage.wrote_writeChunk (s := c.store) hlen.1 (by omega)
  have hwrite := h.logged.write
  have hfin := ByteLog.fin_extend c.log chunk
  have hlogged := h.logged.writeChunk hw
  have hring : Cached (c.store.writeChunk chunk) ⟨c.log.seed, c.log.bytes ++ chunk⟩
      (done ++ chunk) := by
    refine ⟨?_, fun hb => ByteLog.byteAt_extend.mpr (Or.inl (hcached.ring hb)), ?_⟩
    · rw [hfin, ← hcached.fin, List.length_append]
      simp only [WalStorage.writeChunk]
      omega
    · refine ByteLog.HasRun.append (fun k b hk => ?_) ?_
      · exact ByteLog.byteAt_extend.mpr (Or.inl (hcached.run k b hk))
      · have hrun := ByteLog.hasRun_extend c.log chunk
        rw [← hcached.fin] at hrun
        exact hrun
  have hcl : ∀ i, i ∉ (c.store.writeChunk chunk).dirtySegments →
      (c.store.writeChunk chunk).synced i = (c.store.writeChunk chunk).files i := by
    intro i hi
    obtain ⟨hfile, hdirty⟩ := hw.dirty i hi
    rw [hfile]
    exact hclean i hdirty
  have hmeta : Recorded (c.store.writeChunk chunk) ⟨c.log.seed, c.log.bytes ++ chunk⟩ := by
    have hhi := h.metadata.le_write
    rw [Lsn.le_iff_toNat] at hhi
    refine ⟨?_, ?_⟩
    · rcases h.metadata.range with ⟨hlo, hle, _⟩ | hnone
      · refine Or.inl ⟨hlo, hle, ?_⟩
        rw [Lsn.le_iff_toNat, hw.write]
        exact hhi.trans (Nat.le_add_right _ _)
      · exact Or.inr hnone
    · -- what is recorded lies below the bytes that are new
      intro p b hp hb
      have hp : p < (recorded c.store).2.raw.toNat := hp
      rcases ByteLog.byteAt_extend.mp hb with hold | ⟨hge, _⟩
      · exact h.metadata.synced hp hold
      · omega
  simp only [step, hphase, hchunk]
  by_cases hrest : rest.drop c.store.space = []
  · simp only [hrest, List.isEmpty_nil, if_true]
    obtain ⟨hend, hbytes⟩ := WalStorage.ring_extendRing hring.fin hring.ring hring.run (by
      rw [hfin]
      omega)
    exact ⟨{ hlogged with }, ⟨hend, hbytes, fun k b hk => absurd hk (by simp [pending])⟩, hcl,
      ⟨hmeta.range, hmeta.synced⟩, h.returned_le, h.le_attempt, trivial⟩
  · have hempty : (rest.drop c.store.space).isEmpty = false := by simpa using hrest
    simp only [hempty, Bool.false_eq_true, if_false]
    refine ⟨hlogged, hring, hcl, hmeta, h.returned_le, h.le_attempt, hrest, ?_⟩
    rw [hw.write]
    omega

theorem Inv.flush (h : c.Inv) (hidle : c.phase = .idle) : (c.step .flush).Inv := by
  have hpending : c.pending = [] := by simp only [pending, hidle]
  have hunsynced : c.unsynced = c.store.dirtySegments := by simp only [unsynced, hidle]
  have hcached := h.cached
  have hclean := h.clean
  rw [hpending] at hcached
  rw [hunsynced] at hclean
  simp only [step, hidle]
  exact ⟨h.logged, hcached, hclean, h.metadata, h.returned_le, h.metadata.le_write, rfl⟩

theorem Inv.sync (h : c.Inv) {todo : Finset Nat} (hphase : c.phase = .syncing todo) :
    (c.step .sync).Inv := by
  have hpending : c.pending = [] := by simp only [pending, hphase]
  have hunsynced : c.unsynced = todo := by simp only [unsynced, hphase]
  have hattempt := h.phase
  have hcached := h.cached
  have hclean := h.clean
  rw [hpending] at hcached
  rw [hunsynced] at hclean
  simp only [PhaseOk, hphase] at hattempt
  simp only [step, hphase]
  split
  · next hne =>
    refine ⟨{ h.logged with }, { hcached with }, ?_, ⟨h.metadata.range, ?_⟩, h.returned_le, h.le_attempt, hattempt⟩
    · intro i hi
      have hi : i ∉ todo.erase (todo.min' hne) := hi
      show Function.update c.store.synced _ _ i = c.store.files i
      by_cases hmin : i = todo.min' hne
      · subst hmin
        exact Function.update_self ..
      · rw [Function.update_of_ne hmin]
        exact hclean i (fun hmem => hi (Finset.mem_erase.mpr ⟨hmin, hmem⟩))
    · intro p b hp hb
      have hold := h.metadata.synced hp hb
      have hnew := h.logged.bytes hb
      show Segments.byteAt _ (Function.update c.store.synced _ _) p = some b
      unfold Segments.byteAt at hold hnew ⊢
      by_cases hmin : p / c.store.cfg.segmentSize = todo.min' hne
      · rw [hmin, Function.update_self, ← hmin]
        exact hnew
      · rw [Function.update_of_ne hmin]
        exact hold
  · next hempty =>
    have htodo : todo = ∅ := Finset.not_nonempty_iff_eq_empty.mp hempty
    subst htodo
    refine ⟨⟨h.logged.start, ?_, le_refl c.store.writeLsn, h.logged.write, h.logged.bytes⟩, { hcached with },
      fun i _ => hclean i (Finset.notMem_empty i), ⟨h.metadata.range, h.metadata.synced⟩,
      h.returned_le, h.le_attempt, hattempt, rfl, rfl⟩
    exact h.logged.start_le_flush.trans h.logged.flush_le_write

theorem Inv.rename (h : c.Inv) (hphase : c.phase = .recording) : (c.step .rename).Inv := by
  have hpending : c.pending = [] := by simp only [pending, hphase]
  have hcached := h.cached
  have hclean := h.clean
  have hok := h.phase
  rw [hpending] at hcached
  simp only [unsynced, hphase] at hclean
  simp only [PhaseOk, hphase] at hok
  obtain ⟨hattempt, hflush, hdirty⟩ := hok
  rw [hdirty] at hclean
  simp only [step, hphase]
  refine ⟨{ h.logged with }, { hcached with }, ?_,
    ⟨Or.inl ⟨rfl, h.logged.start_le_flush, h.logged.flush_le_write⟩, ?_⟩, ?_, ?_, hattempt, hflush,
    rfl⟩
  · exact fun i _ => hclean i (Finset.notMem_empty i)
  · -- every segment is synced by now
    intro p b _ hb
    have hbyte := h.logged.bytes hb
    unfold Segments.byteAt at hbyte ⊢
    show (c.store.synced _).bind _ = some b
    rw [hclean _ (Finset.notMem_empty _)]
    exact hbyte
  · show c.returned ≤ c.store.flushLsn
    rw [hflush]
    exact h.returned_le.trans h.metadata.le_write
  · show c.store.flushLsn ≤ c.attempt
    rw [hflush, hattempt]

theorem Inv.finish (h : c.Inv) (hphase : c.phase = .returning) : (c.step .finish).Inv := by
  have hpending : c.pending = [] := by simp only [pending, hphase]
  have hcached := h.cached
  have hclean := h.clean
  have hok := h.phase
  rw [hpending] at hcached
  simp only [unsynced, hphase] at hclean
  simp only [PhaseOk, hphase] at hok
  obtain ⟨_, _, hmeta⟩ := hok
  have hrecorded : recorded c.store = (c.store.startLsn, c.store.flushLsn) := by
    rw [recorded, hmeta, Option.getD_some]
  simp only [step, hphase]
  refine ⟨h.logged, hcached, hclean, h.metadata, ?_, h.le_attempt, trivial⟩
  show c.store.flushLsn ≤ (recorded c.store).2
  rw [hrecorded]

/-- The directory is opened again at what the metadata file records. Only what is
recorded has to survive for that. -/
theorem Inv.crash_of_recorded (h : c.Inv) {segments : Segments}
    (hsurv : ∀ p b, p < (recorded c.store).2.raw.toNat →
      c.store.synced.byteAt c.store.cfg.segmentSize p = some b →
      c.store.files.byteAt c.store.cfg.segmentSize p = some b →
      segments.byteAt c.store.cfg.segmentSize p = some b) : (c.step (.crash segments)).Inv := by
  have hhi := h.metadata.le_write
  rw [Lsn.le_iff_toNat] at hhi
  have hwrite := h.logged.write
  have hlo : (recorded c.store).1 ≤ (recorded c.store).2 := by
    rcases h.metadata.range with ⟨_, hle, _⟩ | hnone
    · exact hle
    · rw [hnone]
  have hfin : (c.log.cut (recorded c.store).1.raw.toNat
      ((recorded c.store).2.raw.toNat - (recorded c.store).1.raw.toNat)).fin
        = (recorded c.store).2.raw.toNat := by
    rw [Lsn.le_iff_toNat] at hlo
    rcases h.metadata.range with ⟨hstart, _, _⟩ | hnone
    · rw [ByteLog.fin_cut (by rw [hstart, h.logged.start]) (by omega)]
      omega
    · rw [hnone, Nat.sub_self, ByteLog.cut_zero]
      rfl
  have hbytes : ∀ {p b}, (c.log.cut (recorded c.store).1.raw.toNat
      ((recorded c.store).2.raw.toNat - (recorded c.store).1.raw.toNat)).byteAt p = some b →
        segments.byteAt c.store.cfg.segmentSize p = some b := by
    intro p b hb
    rw [Lsn.le_iff_toNat] at hlo
    rcases h.metadata.range with ⟨hstart, _, _⟩ | hnone
    · obtain ⟨_, hlt, hold⟩ := ByteLog.byteAt_cut hb (by rw [hstart, h.logged.start])
      exact hsurv p b (by omega) (h.metadata.synced (by omega) hold) (h.logged.bytes hold)
    · rw [hnone, Nat.sub_self, ByteLog.cut_zero] at hb
      simp [ByteLog.byteAt] at hb
  exact ⟨⟨rfl, hlo, le_rfl, hfin.symm, hbytes⟩,
    ⟨hfin.symm, fun hk => absurd hk (by simp [step, reopened, WalStorage.openDir]),
      fun k b hk => absurd hk (by simp [pending, step])⟩,
    fun _ _ => rfl, ⟨Or.inl ⟨rfl, hlo, le_rfl⟩, fun _ hb => hbytes hb⟩, h.returned_le, h.le_attempt,
    trivial⟩

theorem Inv.crash (h : c.Inv) {segments : Segments} (hsurv : Survives c.store segments) :
    (c.step (.crash segments)).Inv :=
  h.crash_of_recorded fun p b _ => hsurv p b

/-- **One step.** -/
theorem Inv.step (h : c.Inv) {a : ProcessAction} (ha : c.Allowed a) : (c.step a).Inv := by
  cases a with
  | append startLsn data =>
    cases hphase : c.phase with
    | idle => exact h.append hphase ha
    | _ => simp only [WalProcess.step, hphase]; exact h
  | write =>
    cases hphase : c.phase with
    | appending done rest => exact h.write hphase
    | _ => simp only [WalProcess.step, hphase]; exact h
  | flush =>
    cases hphase : c.phase with
    | idle => exact h.flush hphase
    | _ => simp only [WalProcess.step, hphase]; exact h
  | sync =>
    cases hphase : c.phase with
    | syncing todo => exact h.sync hphase
    | _ => simp only [WalProcess.step, hphase]; exact h
  | rename =>
    cases hphase : c.phase with
    | recording => exact h.rename hphase
    | _ => simp only [WalProcess.step, hphase]; exact h
  | finish =>
    cases hphase : c.phase with
    | returning => exact h.finish hphase
    | _ => simp only [WalProcess.step, hphase]; exact h
  | crash segments => exact h.crash ha

/-! ## Recovery -/

/-- `s` reads back `log` in the range from `lo` to `hi`. -/
def ReadsBack (s : WalStorage) (log : ByteLog UInt8) (lo hi : Lsn) : Prop :=
  ∀ (lsn : Lsn) (n : Nat), lo ≤ lsn → lsn.raw.toNat + n ≤ hi.raw.toNat →
    ∃ bytes, s.readAt lsn n = .ok bytes ∧ bytes.length = n ∧
      ∀ k < n, bytes[k]? = log.byteAt (lsn.raw.toNat + k)

/-- A crash at this moment is recovered from: the reopened store is at its flush
position, which is between what the last flush returned and what the last attempt
was for, and reads back what was appended up to there. -/
def Recovers (c : WalProcess) : Prop :=
  ∀ segments, Survives c.store segments →
    (c.reopened segments).flushLsn = (c.reopened segments).writeLsn ∧
      c.returned ≤ (c.reopened segments).flushLsn ∧ (c.reopened segments).flushLsn ≤ c.attempt ∧
      ReadsBack (c.reopened segments) c.log (c.reopened segments).startLsn
        (c.reopened segments).flushLsn

theorem readsBack_of_retains (h : s.Retains log) : ReadsBack s log s.startLsn s.writeLsn := by
  intro lsn n hlo hhi
  rw [Lsn.le_iff_toNat] at hlo
  have hseed := h.seed
  have hwrite := h.write
  have hlt := s.writeLsn.raw.toNat_lt
  refine ⟨_, (h.readAt_eq (by omega)).trans (if_pos ⟨hlo, hhi⟩), ?_, ?_⟩
  · exact ByteLog.length_slice (by omega) (by omega)
  · exact fun k hk => ByteLog.getElem?_slice (by omega) hk

theorem Inv.recovers (h : c.Inv) : c.Recovers := by
  intro segments hsurv
  refine ⟨rfl, h.returned_le, h.le_attempt, ?_⟩
  have hback := readsBack_of_retains ((h.crash hsurv).retains rfl)
  intro lsn n hlo hhi
  obtain ⟨bytes, hread, hlen, hbytes⟩ := hback lsn n hlo hhi
  refine ⟨bytes, hread, hlen, ?_⟩
  intro k hk
  -- what the reopened store holds is what the log held there before
  obtain ⟨b, hb⟩ : ∃ b, bytes[k]? = some b := ⟨_, List.getElem?_eq_getElem (by omega)⟩
  have hcut := (hbytes k hk).symm.trans hb
  rcases h.metadata.range with ⟨hstart, _, _⟩ | hnone
  · obtain ⟨_, _, hold⟩ := ByteLog.byteAt_cut hcut
      (by rw [← h.logged.start, ← hstart]; exact le_rfl)
    rw [hb, hold]
  · have hzero : (c.reopened segments).flushLsn = Lsn.INVALID := congrArg Prod.snd hnone
    rw [hzero] at hhi
    have hhi : lsn.raw.toNat + n ≤ 0 := hhi
    omega

end WalProcess

/-- **Crash recovery.** In every run of appends and flushes that end below `2^64`, with
crashes anywhere, a crash at any moment is recovered from, and between calls the
store reads back what was appended and nothing that a crash has cut off. -/
theorem crash_recovery (cfg : WalConfig) (acts : List ProcessAction)
    (h : Along (fun pre a => (WalProcess.after cfg pre).Allowed a) acts) :
    let c := WalProcess.after cfg acts
    c.Recovers ∧ (c.phase = .idle →
      WalProcess.ReadsBack c.store c.log c.store.startLsn c.store.writeLsn) := by
  intro c
  have hinv : c.Inv := run_invariant (I := fun _ c => WalProcess.Inv c) (WalProcess.inv_new cfg)
    (fun _ _ _ ha hc => hc.step ha) acts h
  exact ⟨hinv.recovers, fun hidle => WalProcess.readsBack_of_retains (hinv.retains hidle)⟩

/-- Two bytes at `lsn` are appended and flushed, and four more are appended in two
segments of eight bytes; a second flush gets as far as the metadata. -/
def twoFlushes (lsn : Lsn) : List ProcessAction :=
  [.append lsn [1, 2], .write, .flush, .sync, .sync, .rename, .finish,
    .append ⟨lsn.raw + 2⟩ [3, 4, 5, 6], .write, .write, .flush, .sync, .sync]

/-- From position 12 on, a crash in the second flush falls back to the first. -/
theorem crash_recovery_sample :
    (WalProcess.after ⟨8, 4, by decide⟩ (twoFlushes 12)).returned = 14 ∧
      (WalProcess.after ⟨8, 4, by decide⟩ (twoFlushes 12)).Recovers := by
  refine ⟨by decide, (crash_recovery ⟨8, 4, by decide⟩ (twoFlushes 12) ?_).1⟩
  intro pre a post hsplit
  have ha : a ∈ twoFlushes 12 := by
    rw [hsplit]
    exact List.mem_append_right _ List.mem_cons_self
  simp only [twoFlushes, List.mem_cons, List.not_mem_nil, or_false] at ha
  rcases ha with rfl | rfl | rfl | rfl | rfl | rfl | rfl | rfl | rfl | rfl | rfl | rfl | rfl
  all_goals first | trivial | (show _ + _ < _; decide)

/-- From `2^64 - 4` on, the second append wraps to position 2, and what a crash in the
second flush recovers is above what that flush was for. -/
theorem attempt_below_recovered :
    ¬ (WalProcess.after ⟨8, 4, by decide⟩ (twoFlushes ⟨UInt64.ofNat (2 ^ 64 - 4)⟩)).Recovers := by
  obtain ⟨c, hc⟩ : ∃ c, WalProcess.after ⟨8, 4, by decide⟩
    (twoFlushes ⟨UInt64.ofNat (2 ^ 64 - 4)⟩) = c := ⟨_, rfl⟩
  have hattempt : c.attempt = 2 := by
    rw [← hc]
    decide
  have hmeta : (WalProcess.recorded c.store).2 = ⟨UInt64.ofNat (2 ^ 64 - 2)⟩ := by
    rw [← hc]
    decide
  rw [hc]
  intro h
  have hle := (h c.store.files fun _ _ _ hb => hb).2.2.1
  have hle : (WalProcess.recorded c.store).2 ≤ c.attempt := hle
  rw [hmeta, hattempt] at hle
  exact absurd hle (by decide)

end AethelDB.Safekeeper
