import AethelDB.Safekeeper.CrashRecovery

/-!
# Recycling segments

`remove_segments_before` of `safekeeper/src/storage.rs` between the appends, flushes and
crashes of `CrashRecovery`. It deletes the segments below its horizon and moves the
start position up. Two things are missing for that to be safe at any moment.

The horizon is not compared with the flush position, so the start position can end up
past everything that is stored. (The next append of such a store goes to a file that was
deleted under its cached handle; the model has no handles and does not follow it there.)
And the new start position is in memory only until the next flush records it; a crash
before that brings back the old one, without the segment files it refers to
(`recycling_loses_log`).

`recycling_keeps_log` leaves these two cases out: the segment of the horizon is not past
that of the flush position, and a crash finds the start position recorded. For such a
run there is a process that takes the same steps but never recycles. `Remains.Of` relates
the two: they differ in what lies below the start position only, so everything the
recycled store reads back is in the log of the other one.

Without crashes the file operations come to the calls of `Storage`
(`file_operations_refine_calls`): `settled` is what the call in progress leads to.
-/

namespace AethelDB.Safekeeper

open AethelDB.Lib

/-! ## The process with recycling -/

inductive RecyclingAction where
  /-- A step of an append or a flush, or a crash. -/
  | process (a : ProcessAction)
  | recycle (horizon : Lsn)

namespace WalProcess

def stepRecycling (c : WalProcess) : RecyclingAction → WalProcess
  | .process a => c.step a
  | .recycle horizon =>
    match c.phase with
    | .idle => { c with store := (c.store.removeSegmentsBefore horizon).1 }
    | _ => c

def afterRecycling (cfg : WalConfig) (acts : List RecyclingAction) : WalProcess :=
  run stepRecycling (new cfg) acts

/-- The positions are in order, and between calls everything from the start position on
is read back. -/
def Intact (c : WalProcess) : Prop :=
  c.store.startLsn ≤ c.store.flushLsn ∧ c.store.flushLsn ≤ c.store.writeLsn ∧
    (c.phase = .idle → ReadsBack c.store c.log c.store.startLsn c.store.writeLsn)

/-- The metadata file has the start position that the process has, or says that nothing
was flushed yet. -/
def StartRecorded (s : WalStorage) : Prop :=
  ∀ m ∈ s.metaFile, m.1 = s.startLsn ∨ m.2 = Lsn.INVALID

/-- Segments are recycled below that of the flush position, and no crash comes between
recycling and the flush that records it. -/
def RecyclingAllowed (c : WalProcess) : RecyclingAction → Prop
  | .process (.crash segments) => Survives c.store segments ∧ StartRecorded c.store
  | .process a => c.Allowed a
  | .recycle horizon => horizon.raw.toNat / c.store.cfg.segmentSize
      ≤ c.store.flushLsn.raw.toNat / c.store.cfg.segmentSize

/-! ## The process that never recycles -/

variable {c : WalProcess} {d : Remains}

/-- What a process that has recycled segments has of its own. -/
structure Remains where
  start : Lsn
  files : Segments
  synced : Segments
  metaFile : Option (Lsn × Lsn)
  log : ByteLog UInt8

/-- The process that is `c` but for recycling. -/
def withRemains (c : WalProcess) (d : Remains) : WalProcess :=
  { c with
    store := { c.store with
      startLsn := d.start, files := d.files, synced := d.synced, metaFile := d.metaFile }
    log := d.log }

/-- `d` is `c` from its start position on. -/
structure Remains.Of (d : Remains) (c : WalProcess) : Prop where
  start_le : c.store.startLsn ≤ d.start
  start_le_flush : d.start ≤ c.store.flushLsn
  files : ∀ i, d.start.raw.toNat / c.store.cfg.segmentSize ≤ i → d.files i = c.store.files i
  synced : ∀ i, d.start.raw.toNat / c.store.cfg.segmentSize ≤ i → d.synced i = c.store.synced i
  metaFlush : d.metaFile.map Prod.snd = c.store.metaFile.map Prod.snd
  metaRange : ∀ m ∈ d.metaFile, m.1 ≤ m.2
  fin : d.log.fin = c.log.fin
  seed : d.log.seed ≤ d.start.raw.toNat
  log : ∀ p, d.start.raw.toNat ≤ p → d.log.byteAt p = c.log.byteAt p

theorem Remains.of_new (cfg : WalConfig) :
    Remains.Of ⟨Lsn.INVALID, fun _ => none, fun _ => none, none, ByteLog.blank⟩ (new cfg) where
  start_le := le_rfl
  start_le_flush := le_rfl
  files := fun _ _ => rfl
  synced := fun _ _ => rfl
  metaFlush := rfl
  metaRange := fun _ hm => absurd hm (by simp)
  fin := rfl
  seed := le_rfl
  log := fun _ _ => rfl

/-- **Nothing is missing from the start position on.** -/
theorem Remains.Of.intact (h : d.Of c) (hinv : c.Inv) : (c.withRemains d).Intact := by
  refine ⟨h.start_le_flush, hinv.logged.flush_le_write, ?_⟩
  intro hidle lsn n hlo hhi
  -- the ring and the segments that are left hold the end of the longer log
  have hretains : (c.withRemains d).store.Retains c.log :=
    (hinv.retains hidle).trim h.start_le h.start_le_flush h.files
  obtain ⟨bytes, hread, hlen, hbytes⟩ := readsBack_of_retains hretains lsn n hlo hhi
  refine ⟨bytes, hread, hlen, ?_⟩
  intro k hk
  have hlo : d.start.raw.toNat ≤ lsn.raw.toNat := Lsn.le_iff_toNat.mp hlo
  rw [hbytes k hk]
  exact (h.log _ (by omega)).symm

/-! ## The steps -/

/-- A step of the recycled process is a step of the other. -/
def Matches (c' : WalProcess) : Prop := ∃ c d, Inv c ∧ Remains.Of d c ∧ c' = c.withRemains d

theorem Remains.Of.start_le_write (h : d.Of c) (hinv : c.Inv) : d.start ≤ c.store.writeLsn :=
  h.start_le_flush.trans hinv.logged.flush_le_write

theorem update_agree {f g : Segments} {lo index : Nat} {x y : Option (List UInt8)}
    (h : ∀ i, lo ≤ i → f i = g i) (hxy : lo ≤ index → x = y) :
    ∀ i, lo ≤ i → Function.update f index x i = Function.update g index y i := by
  intro i hi
  by_cases heq : i = index
  · subst heq
    rw [Function.update_self, Function.update_self, hxy hi]
  · rw [Function.update_of_ne heq, Function.update_of_ne heq, h i hi]

theorem Remains.Of.append (h : d.Of c) (hinv : c.Inv) (hidle : c.phase = .idle) {startLsn : Lsn}
    {data : List UInt8} (hfit : startLsn.raw.toNat + data.length < 2 ^ 64) :
    Matches ((c.withRemains d).step (.append startLsn data)) := by
  have hnext := hinv.append hidle hfit
  have hle := hinv.logged.start_le_flush.trans hinv.logged.flush_le_write
  have hblank : d.log.IsBlank ↔ c.log.IsBlank := by
    rw [ByteLog.isBlank_iff_fin, ByteLog.isBlank_iff_fin, h.fin]
  have hseed := WalStorage.seed_eq hinv.logged.write hle startLsn
  have hwrite : (c.withRemains d).store.writeLsn.raw.toNat = d.log.fin :=
    hinv.logged.write.trans h.fin.symm
  have hseed' := WalStorage.seed_eq hwrite (h.start_le_write hinv) startLsn
  have hidle' : (c.withRemains d).phase = .idle := hidle
  have hlog : (c.withRemains d).log = d.log := rfl
  simp only [step, hidle, hseed, seedLog] at hnext
  simp only [step, hidle', hseed', seedLog, hblank, hlog]
  by_cases hb : c.log.IsBlank
  · simp only [if_pos hb, ne_eq, not_true_eq_false, if_false] at hnext ⊢
    -- without a position nothing was recycled, so the files are all there
    have hzero : d.start.raw.toNat = 0 := by
      have hstart := Lsn.le_iff_toNat.mp (h.start_le_write hinv)
      rw [hinv.logged.write, ByteLog.isBlank_iff_fin.mp hb] at hstart
      omega
    refine ⟨_, ⟨startLsn, d.files, d.synced, d.metaFile, ⟨startLsn.raw.toNat, []⟩⟩, hnext, ?_, rfl⟩
    refine ⟨le_rfl, le_rfl, fun i _ => h.files i ?_, fun i _ => h.synced i ?_, h.metaFlush,
      h.metaRange, rfl, le_rfl, fun _ _ => rfl⟩
    all_goals
      rw [hzero, Nat.zero_div]
      exact Nat.zero_le i
  · simp only [if_neg hb] at hnext ⊢
    have hsame : (c.withRemains d).store.writeLsn = c.store.writeLsn := rfl
    rw [hsame]
    by_cases hpos : startLsn = c.store.writeLsn
    · rw [if_neg (not_not.mpr hpos)] at hnext ⊢
      exact ⟨_, d, hnext, { h with }, rfl⟩
    · rw [if_pos hpos]
      exact ⟨c, d, hinv, h, rfl⟩

theorem Remains.Of.write (h : d.Of c) (hinv : c.Inv) {done rest : List UInt8}
    (hphase : c.phase = .appending done rest) : Matches ((c.withRemains d).step .write) := by
  have hnext := hinv.write hphase
  have hphase' : (c.withRemains d).phase = .appending done rest := hphase
  -- the segment that is written to was not recycled
  have hindex : d.start.raw.toNat / c.store.cfg.segmentSize
      ≤ c.store.writeLsn.raw.toNat / c.store.cfg.segmentSize :=
    Nat.div_le_div_right (Lsn.le_iff_toNat.mp (h.start_le_write hinv))
  have hfile := h.files _ hindex
  obtain ⟨chunk, hchunk⟩ : ∃ chunk, rest.take c.store.space = chunk := ⟨_, rfl⟩
  obtain ⟨files, hfiles⟩ : ∃ files, ((c.withRemains d).store.writeChunk chunk).files = files :=
    ⟨_, rfl⟩
  have hkeep : ∀ i, d.start.raw.toNat / c.store.cfg.segmentSize ≤ i →
      files i = (c.store.writeChunk chunk).files i := by
    rw [← hfiles]
    refine update_agree h.files fun _ => ?_
    simp only [WalStorage.appendSegment, withRemains, hfile]
  have hlog : ∀ p, d.start.raw.toNat ≤ p → ByteLog.byteAt ⟨d.log.seed, d.log.bytes ++ chunk⟩ p
      = ByteLog.byteAt ⟨c.log.seed, c.log.bytes ++ chunk⟩ p := by
    intro p hp
    refine Option.ext fun b => ?_
    rw [ByteLog.byteAt_extend, ByteLog.byteAt_extend, h.log p hp, h.fin]
  have hfin : ByteLog.fin ⟨d.log.seed, d.log.bytes ++ chunk⟩
      = ByteLog.fin ⟨c.log.seed, c.log.bytes ++ chunk⟩ := by
    rw [ByteLog.fin_extend, ByteLog.fin_extend, h.fin]
  refine ⟨_, { d with files := files, log := ⟨d.log.seed, d.log.bytes ++ chunk⟩ }, hnext, ?_, ?_⟩
  · simp only [step, hphase, hchunk]
    split
    · exact ⟨h.start_le, h.start_le_flush, hkeep, h.synced, h.metaFlush, h.metaRange, hfin, h.seed, hlog⟩
    · exact ⟨h.start_le, h.start_le_flush, hkeep, h.synced, h.metaFlush, h.metaRange, hfin, h.seed, hlog⟩
  · have hspace : (c.withRemains d).store.space = c.store.space := rfl
    simp only [step, hphase, hphase', hspace, hchunk, ← hfiles]
    split <;> rfl

theorem Remains.Of.sync (h : d.Of c) (hinv : c.Inv) {todo : Finset Nat}
    (hphase : c.phase = .syncing todo) : Matches ((c.withRemains d).step .sync) := by
  have hnext := hinv.sync hphase
  have hphase' : (c.withRemains d).phase = .syncing todo := hphase
  simp only [step, hphase] at hnext
  simp only [step, hphase']
  split
  · next hne =>
    rw [dif_pos hne] at hnext
    obtain ⟨index, hindex⟩ : ∃ index, todo.min' hne = index := ⟨_, rfl⟩
    simp only [hindex] at hnext ⊢
    refine ⟨_, { d with synced := Function.update d.synced index (d.files index) }, hnext, ?_, rfl⟩
    exact { h with synced := update_agree h.synced (h.files index) }
  · next hempty =>
    rw [dif_neg hempty] at hnext
    exact ⟨_, d, hnext, { h with start_le_flush := h.start_le_write hinv }, rfl⟩

theorem Remains.Of.rename (h : d.Of c) (hinv : c.Inv) (hphase : c.phase = .recording) :
    Matches ((c.withRemains d).step .rename) := by
  have hnext := hinv.rename hphase
  have hphase' : (c.withRemains d).phase = .recording := hphase
  simp only [step, hphase] at hnext
  simp only [step, hphase']
  refine ⟨_, { d with metaFile := some (d.start, c.store.flushLsn) }, hnext, ?_, rfl⟩
  refine { h with metaFlush := rfl, metaRange := fun m hm => ?_ }
  rw [← Option.some.inj hm]
  exact h.start_le_flush

/-- Both metadata files record the same flush position. -/
theorem Remains.Of.recorded_eq (h : d.Of c) :
    (recorded (c.withRemains d).store).2 = (recorded c.store).2 := by
  have hmeta := h.metaFlush
  show (d.metaFile.getD _).2 = (c.store.metaFile.getD _).2
  cases hd : d.metaFile <;> cases hc : c.store.metaFile <;> simp_all

theorem Remains.Of.recorded_le (h : d.Of c) :
    (recorded (c.withRemains d).store).1 ≤ (recorded (c.withRemains d).store).2 := by
  have hrange := h.metaRange
  show (d.metaFile.getD _).1 ≤ (d.metaFile.getD _).2
  cases hd : d.metaFile with
  | none => exact le_rfl
  | some m => exact hrange m hd

theorem Remains.Of.cut (h : d.Of c) (hinv : c.Inv) {lo hi : Nat} (hlo : lo = d.start.raw.toNat)
    (hhi : hi ≤ c.log.fin) (hle : lo ≤ hi) :
    (d.log.cut lo (hi - lo)).fin = hi ∧ ∀ p, lo ≤ p → (d.log.cut lo (hi - lo)).byteAt p
      = (c.log.cut c.log.seed (hi - c.log.seed)).byteAt p := by
  have hseed := h.seed
  have hstart := Lsn.le_iff_toNat.mp h.start_le
  rw [hinv.logged.start] at hstart
  refine ⟨?_, ?_⟩
  · rw [ByteLog.fin_cut (by omega) (by rw [h.fin]; omega)]
    omega
  · intro p hp
    rw [ByteLog.byteAt_cut_eq (by omega) hp, ByteLog.byteAt_cut_eq le_rfl (by omega),
      h.log p (by omega)]
    exact if_congr (by omega) rfl rfl

/-- Either a flush was recorded, with these start positions, or none was. -/
theorem Remains.Of.recorded_cases (h : d.Of c) (hinv : c.Inv)
    (hrec : StartRecorded (c.withRemains d).store) :
    (recorded (c.withRemains d).store).1 = d.start ∧ (recorded c.store).1 = c.store.startLsn ∨
      recorded (c.withRemains d).store = (Lsn.INVALID, Lsn.INVALID) ∧
        recorded c.store = (Lsn.INVALID, Lsn.INVALID) := by
  have hflush := h.recorded_eq
  have hle := h.recorded_le
  have hrange := hinv.metadata.range
  by_cases hzero : (recorded (c.withRemains d).store).2 = Lsn.INVALID
  · refine Or.inr ⟨Prod.ext (le_antisymm (hzero ▸ hle) (Lsn.INVALID_le _)) hzero, ?_⟩
    rcases hrange with ⟨_, hle₀, _⟩ | hnone
    · rw [← hflush, hzero] at hle₀
      exact Prod.ext (le_antisymm hle₀ (Lsn.INVALID_le _)) (hflush.symm.trans hzero)
    · exact hnone
  · refine Or.inl ⟨?_, ?_⟩
    · -- a metadata file that is missing would have recorded nothing
      have hfile : d.metaFile = some (recorded (c.withRemains d).store) := by
        show d.metaFile = some (d.metaFile.getD _)
        cases hd : d.metaFile with
        | none =>
          have hnone : (recorded (c.withRemains d).store).2 = Lsn.INVALID := by
            show (d.metaFile.getD _).2 = _
            rw [hd]
            rfl
          exact absurd hnone hzero
        | some m => rfl
      exact (hrec _ hfile).resolve_right hzero
    · rcases hrange with ⟨hstart, _, _⟩ | hnone
      · exact hstart
      · exact absurd (hflush.trans (congrArg Prod.snd hnone)) hzero

/-- The segments `above` from number `lo` on, and `below` before. -/
def spliced (lo : Nat) (above below : Segments) : Segments := fun i =>
  if lo ≤ i then above i else below i

/-- What the other process has on disk after the crash: the same from the reopened start
position on, and what it had synced below. -/
theorem Remains.Of.inv_crash (h : d.Of c) (hinv : c.Inv) {segments : Segments}
    (hsurv : Survives (c.withRemains d).store segments)
    (hrec : StartRecorded (c.withRemains d).store) :
    (c.step (.crash (spliced ((recorded (c.withRemains d).store).1.raw.toNat
      / c.store.cfg.segmentSize) segments c.store.synced))).Inv := by
  refine hinv.crash_of_recorded fun p b hp hsynced hfiles => ?_
  rw [Segments.byteAt, spliced]
  split
  · next hi =>
    rcases h.recorded_cases hinv hrec with ⟨hstart, _⟩ | ⟨_, hnone⟩
    · rw [hstart] at hi
      refine hsurv p b ?_ ?_
      · show (d.synced (p / c.store.cfg.segmentSize)).bind _ = some b
        rw [h.synced _ hi]
        exact hsynced
      · show (d.files (p / c.store.cfg.segmentSize)).bind _ = some b
        rw [h.files _ hi]
        exact hfiles
    · rw [hnone] at hp
      exact absurd hp (Nat.not_lt_zero p)
  · exact hsynced

theorem Remains.Of.log_crash (h : d.Of c) (hinv : c.Inv)
    (hrec : StartRecorded (c.withRemains d).store) (segments segments' : Segments) :
    ((c.withRemains d).step (.crash segments)).log.fin
        = (recorded (c.withRemains d).store).2.raw.toNat ∧
      ∀ p, (recorded (c.withRemains d).store).1.raw.toNat ≤ p →
        ((c.withRemains d).step (.crash segments)).log.byteAt p
          = (c.step (.crash segments')).log.byteAt p := by
  obtain ⟨m, hm⟩ : ∃ m, recorded (c.withRemains d).store = m := ⟨_, rfl⟩
  obtain ⟨m₀, hm₀⟩ : ∃ m₀, recorded c.store = m₀ := ⟨_, rfl⟩
  have hflush := h.recorded_eq
  have hle := h.recorded_le
  have hwrite := hinv.metadata.le_write
  have hcases := h.recorded_cases hinv hrec
  show (d.log.cut (recorded (c.withRemains d).store).1.raw.toNat
      ((recorded (c.withRemains d).store).2.raw.toNat
        - (recorded (c.withRemains d).store).1.raw.toNat)).fin = _ ∧
    ∀ p, _ → ByteLog.byteAt (d.log.cut (recorded (c.withRemains d).store).1.raw.toNat
      ((recorded (c.withRemains d).store).2.raw.toNat
        - (recorded (c.withRemains d).store).1.raw.toNat)) p
      = ByteLog.byteAt (c.log.cut (recorded c.store).1.raw.toNat
        ((recorded c.store).2.raw.toNat - (recorded c.store).1.raw.toNat)) p
  rw [hm] at hflush hle hcases ⊢
  rw [hm₀] at hflush hwrite hcases ⊢
  rcases hcases with ⟨hstart, hstart₀⟩ | ⟨hnone, hnone₀⟩
  · rw [hstart₀, hinv.logged.start, ← hflush]
    refine h.cut hinv (by rw [hstart]) ?_ (Lsn.le_iff_toNat.mp hle)
    rw [← hinv.logged.write, hflush]
    exact Lsn.le_iff_toNat.mp hwrite
  · rw [hnone, hnone₀, Nat.sub_self, ByteLog.cut_zero]
    exact ⟨rfl, fun _ _ => rfl⟩

theorem Remains.Of.crash (h : d.Of c) (hinv : c.Inv) {segments : Segments}
    (hsurv : Survives (c.withRemains d).store segments)
    (hrec : StartRecorded (c.withRemains d).store) :
    Matches ((c.withRemains d).step (.crash segments)) := by
  have hnext := h.inv_crash hinv hsurv hrec
  obtain ⟨segments₀, hsegs⟩ : ∃ segments₀, spliced ((recorded (c.withRemains d).store).1.raw.toNat
    / c.store.cfg.segmentSize) segments c.store.synced = segments₀ := ⟨_, rfl⟩
  have hkeep : ∀ i, (recorded (c.withRemains d).store).1.raw.toNat / c.store.cfg.segmentSize ≤ i →
      segments i = segments₀ i := by
    intro i hi
    rw [← hsegs]
    exact (if_pos hi).symm
  rw [hsegs] at hnext
  obtain ⟨hfin, hlog⟩ := h.log_crash hinv hrec segments segments₀
  have hflush := h.recorded_eq
  refine ⟨_, ⟨(recorded (c.withRemains d).store).1, segments, segments, d.metaFile,
    ((c.withRemains d).step (.crash segments)).log⟩, hnext, ?_, ?_⟩
  · refine ⟨?_, ?_, hkeep, hkeep, h.metaFlush, h.metaRange, ?_, le_rfl, hlog⟩
    · show (recorded c.store).1 ≤ _
      rcases h.recorded_cases hinv hrec with ⟨hstart, hstart₀⟩ | ⟨_, hnone₀⟩
      · rw [hstart, hstart₀]
        exact h.start_le
      · rw [hnone₀]
        exact Lsn.INVALID_le _
    · show _ ≤ (recorded c.store).2
      rw [← hflush]
      exact h.recorded_le
    · rw [hfin, hflush, ← hnext.logged.write]
      rfl
  · have hpos : (c.store.metaFile.getD (Lsn.INVALID, Lsn.INVALID)).2
        = (d.metaFile.getD (Lsn.INVALID, Lsn.INVALID)).2 := hflush.symm
    simp only [step, reopened, withRemains, WalStorage.openDir, recorded, hpos]

theorem Remains.Of.recycle (h : d.Of c) {horizon : Lsn}
    (hhorizon : horizon.raw.toNat / c.store.cfg.segmentSize
      ≤ c.store.flushLsn.raw.toNat / c.store.cfg.segmentSize) :
    ∃ d' : Remains, d'.Of c ∧
      { c.withRemains d with store := ((c.withRemains d).store.removeSegmentsBefore horizon).1 }
        = c.withRemains d' := by
  obtain ⟨start, files, synced, heq, hmoved, hstart, hkeep⟩ :=
    (c.withRemains d).store.removeSegmentsBefore_eq horizon
  have hmoved : d.start ≤ start := hmoved
  have hle := Lsn.le_iff_toNat.mp hmoved
  have hdiv : d.start.raw.toNat / c.store.cfg.segmentSize
      ≤ start.raw.toNat / c.store.cfg.segmentSize := Nat.div_le_div_right hle
  have hbelow : start ≤ c.store.flushLsn := by
    rcases hstart with hsame | hfloor
    · rw [hsame]
      exact h.start_le_flush
    · rw [Lsn.le_iff_toNat, hfloor]
      exact (Nat.mul_le_mul_right _ hhorizon).trans (Nat.div_mul_le_self _ _)
  refine ⟨⟨start, files, synced, d.metaFile, d.log⟩, ?_, by rw [heq]; rfl⟩
  refine ⟨h.start_le.trans hmoved, hbelow, ?_, ?_, h.metaFlush, h.metaRange, h.fin,
    h.seed.trans hle, fun p hp => h.log p (hle.trans hp)⟩
  · exact fun i hi => (hkeep i hi).1.trans (h.files i (hdiv.trans hi))
  · exact fun i hi => (hkeep i hi).2.trans (h.synced i (hdiv.trans hi))

/-- **One step.** -/
theorem Matches.step {c' : WalProcess} (h : c'.Matches) {a : RecyclingAction}
    (ha : c'.RecyclingAllowed a) : (c'.stepRecycling a).Matches := by
  obtain ⟨c, d, hinv, hd, rfl⟩ := h
  have hsame : (c.withRemains d).Matches := ⟨c, d, hinv, hd, rfl⟩
  have hphase : (c.withRemains d).phase = c.phase := rfl
  cases a with
  | recycle horizon =>
    simp only [stepRecycling, hphase]
    split
    · obtain ⟨d', hd', heq⟩ := hd.recycle ha
      exact ⟨c, d', hinv, hd', heq⟩
    · exact hsame
  | process a =>
    show ((c.withRemains d).step a).Matches
    cases a with
    | append startLsn data =>
      cases hc : c.phase with
      | idle => exact hd.append hinv hc ha
      | _ => simp only [WalProcess.step, hphase, hc]; exact hsame
    | write =>
      cases hc : c.phase with
      | appending done rest => exact hd.write hinv hc
      | _ => simp only [WalProcess.step, hphase, hc]; exact hsame
    | flush =>
      cases hc : c.phase with
      | idle =>
        have hnext := hinv.flush hc
        simp only [WalProcess.step, hc] at hnext
        simp only [WalProcess.step, hphase, hc]
        exact ⟨_, d, hnext, { hd with }, rfl⟩
      | _ => simp only [WalProcess.step, hphase, hc]; exact hsame
    | sync =>
      cases hc : c.phase with
      | syncing todo => exact hd.sync hinv hc
      | _ => simp only [WalProcess.step, hphase, hc]; exact hsame
    | rename =>
      cases hc : c.phase with
      | recording => exact hd.rename hinv hc
      | _ => simp only [WalProcess.step, hphase, hc]; exact hsame
    | finish =>
      cases hc : c.phase with
      | returning =>
        have hnext := hinv.finish hc
        simp only [WalProcess.step, hc] at hnext
        simp only [WalProcess.step, hphase, hc]
        exact ⟨_, d, hnext, { hd with }, rfl⟩
      | _ => simp only [WalProcess.step, hphase, hc]; exact hsame
    | crash segments => exact hd.crash hinv ha.1 ha.2

end WalProcess

/-- **Recycling keeps the log.** In every run of appends, flushes, recycling and crashes in
which appends end below `2^64`, segments are recycled below that of the flush position,
and a crash finds the start position recorded: the positions stay in order, and between
calls every byte from the start position on is read back as it was appended. -/
theorem recycling_keeps_log (cfg : WalConfig) (acts : List RecyclingAction)
    (h : Along (fun pre a => (WalProcess.afterRecycling cfg pre).RecyclingAllowed a) acts) :
    (WalProcess.afterRecycling cfg acts).Intact := by
  have hmatch : (WalProcess.afterRecycling cfg acts).Matches :=
    run_invariant (I := fun _ c => WalProcess.Matches c)
      ⟨_, _, WalProcess.inv_new cfg, WalProcess.Remains.of_new cfg, rfl⟩
      (fun _ _ _ ha hc => hc.step ha) acts h
  obtain ⟨c, d, hinv, hd, heq⟩ := hmatch
  rw [heq]
  exact hd.intact hinv

/-- Ten bytes from position 8 on, in two segments of eight bytes, are appended and flushed,
and the segments below `horizon` recycled. -/
def recycledAt (horizon : Lsn) : List RecyclingAction :=
  [.process (.append 8 [1, 2, 3, 4, 5, 6, 7, 8, 9, 10]), .process .write, .process .write,
    .process .flush, .process .sync, .process .sync, .process .sync, .process .rename,
    .process .finish, .recycle horizon]

/-- The next flush, which has nothing to sync. -/
def reflush : List RecyclingAction :=
  [.process .flush, .process .sync, .process .rename, .process .finish]

/-- A crash that leaves what is synced. -/
def crashAfter (acts : List RecyclingAction) : RecyclingAction :=
  .process (.crash (WalProcess.afterRecycling (WalConfig.small 4) acts).store.synced)

/-- Once the next flush has recorded it, the new start position is there after a crash. -/
theorem recycling_keeps_log_sample :
    (WalProcess.afterRecycling (WalConfig.small 4)
        (recycledAt 16 ++ reflush ++ [crashAfter (recycledAt 16 ++ reflush)])).store.startLsn = 16 ∧
      (WalProcess.afterRecycling (WalConfig.small 4)
        (recycledAt 16 ++ reflush ++ [crashAfter (recycledAt 16 ++ reflush)])).Intact := by
  refine ⟨by decide +kernel, recycling_keeps_log (WalConfig.small 4) _ ?_⟩
  refine along_concat.mpr ⟨?_, fun _ _ hb _ => hb, ?_⟩
  · refine along_iff_getElem.mpr fun i => ?_
    fin_cases i
    case «0» => show _ + _ < _; decide
    case «9» => show _ / _ ≤ _ / _; decide +kernel
    all_goals trivial
  · have hmeta : (WalProcess.afterRecycling (WalConfig.small 4)
        (recycledAt 16 ++ reflush)).store.metaFile = some (16, 18) := by decide +kernel
    intro m hm
    rw [hmeta] at hm
    obtain rfl := Option.some.inj hm
    exact Or.inl (by decide +kernel)

/-- A horizon past everything that is stored moves the start position past it, too. And
a crash right after recycling brings back a start position whose segment is gone. -/
theorem recycling_loses_log :
    ¬ (WalProcess.afterRecycling (WalConfig.small 4) (recycledAt 24)).Intact ∧
      ¬ (WalProcess.afterRecycling (WalConfig.small 4)
        (recycledAt 16 ++ [crashAfter (recycledAt 16)])).Intact := by
  refine ⟨fun h => absurd h.1 (by decide +kernel), fun h => ?_⟩
  have hstart : (WalProcess.afterRecycling (WalConfig.small 4)
      (recycledAt 16 ++ [crashAfter (recycledAt 16)])).store.startLsn = 8 := by decide +kernel
  have hwrite : (WalProcess.afterRecycling (WalConfig.small 4)
      (recycledAt 16 ++ [crashAfter (recycledAt 16)])).store.writeLsn = 18 := by decide +kernel
  have hread : (WalProcess.afterRecycling (WalConfig.small 4)
      (recycledAt 16 ++ [crashAfter (recycledAt 16)])).store.readAt 8 1
        = .error (.io .notFound) := by decide +kernel
  have hback := h.2.2 rfl
  rw [hstart, hwrite] at hback
  obtain ⟨bytes, hok, _⟩ := hback 8 1 le_rfl (by decide)
  rw [hread] at hok
  simp at hok

/-! ## Without crashes -/

namespace WalProcess

variable {c : WalProcess}

/-- The store as it is once the call in progress has gone through. -/
def settled (c : WalProcess) : WalStorage :=
  match c.phase with
  | .idle | .returning => c.store
  | .appending done rest =>
    (WalStorage.writeChunks rest.length c.store rest).extendRing (done ++ rest)
  | .syncing todo =>
    { c.store with
      synced := fun i => if i ∈ todo then c.store.files i else c.store.synced i
      dirtySegments := ∅
      flushLsn := c.store.writeLsn
      metaFile := some (c.store.startLsn, c.store.writeLsn) }
  | .recording => { c.store with metaFile := some (c.store.startLsn, c.store.flushLsn) }

/-- The call that an action begins. -/
def begins (c : WalProcess) (a : RecyclingAction) : Option StorageAction :=
  match a, c.phase with
  | .process (.append startLsn data), .idle => some (.append startLsn data)
  | .process .flush, .idle => some .flush
  | .recycle horizon, .idle => some (.removeSegmentsBefore horizon)
  | _, _ => none

def calls (c : WalProcess) : List RecyclingAction → List StorageAction
  | [] => []
  | a :: acts => (c.begins a).toList ++ calls (c.stepRecycling a) acts

/-- An append in progress has something left to write. -/
def Unfinished (c : WalProcess) : Prop := ∀ {done rest}, c.phase = .appending done rest → rest ≠ []

theorem Unfinished.step (h : c.Unfinished) (a : RecyclingAction) : (c.stepRecycling a).Unfinished := by
  intro done rest hphase
  rcases a with a | horizon
  · cases a <;> simp only [stepRecycling, WalProcess.step] at hphase <;> grind [Unfinished]
  · simp only [stepRecycling] at hphase
    grind [Unfinished]

/-- More rounds than there are bytes change nothing. -/
theorem writeChunks_eq {n m : Nat} {s : WalStorage} {data : List UInt8} (hn : data.length ≤ n)
    (hm : data.length ≤ m) : WalStorage.writeChunks n s data = WalStorage.writeChunks m s data := by
  induction n generalizing m s data with
  | zero =>
    obtain rfl := List.length_eq_zero_iff.mp (Nat.le_zero.mp hn)
    cases m <;> rfl
  | succ n ih =>
    cases data with
    | nil => cases m <;> rfl
    | cons b data =>
      have hspace := s.space_pos
      obtain ⟨m, rfl⟩ := Nat.exists_eq_add_one_of_ne_zero (Nat.ne_zero_of_lt hm)
      simp only [List.length_cons] at hn hm
      exact ih (by simp; omega) (by simp; omega)

theorem settled_append (hc : c.phase = .idle) (startLsn : Lsn) (data : List UInt8) :
    (c.step (.append startLsn data)).settled = c.store.step (.append startLsn data) := by
  simp only [step, hc, WalStorage.step, WalStorage.append]
  by_cases hpos : startLsn = (c.store.seed startLsn).writeLsn
  · rw [if_neg (not_not.mpr hpos), if_neg (not_not.mpr hpos)]
    cases data <;> rfl
  · rw [if_pos hpos, if_pos hpos]
    simp only [settled, hc]

theorem settled_write (h : c.Unfinished) : (c.step .write).settled = c.settled := by
  cases hphase : c.phase with
  | appending done rest =>
    have hspace := c.store.space_pos
    obtain ⟨n, hn⟩ := Nat.exists_eq_add_one_of_ne_zero (List.length_pos_iff.mpr (h hphase)).ne'
    have hround : WalStorage.writeChunks rest.length c.store rest
        = WalStorage.writeChunks (rest.drop c.store.space).length
          (c.store.writeChunk (rest.take c.store.space)) (rest.drop c.store.space) := by
      rw [hn, WalStorage.writeChunks, if_neg (by simpa using h hphase)]
      exact writeChunks_eq (by rw [List.length_drop]; omega) le_rfl
    simp only [settled, step, hphase, hround]
    by_cases hrest : rest.drop c.store.space = []
    · have hall : rest.take c.store.space = rest := List.take_of_length_le (List.drop_eq_nil_iff.mp hrest)
      simp only [hrest, List.isEmpty_nil, if_true, hall]
      rfl
    · have hempty : (rest.drop c.store.space).isEmpty = false := by simpa using hrest
      simp only [hempty, Bool.false_eq_true, if_false, List.append_assoc, List.take_append_drop]
  | _ => simp only [step, hphase]

theorem settled_sync (c : WalProcess) : (c.step .sync).settled = c.settled := by
  cases hphase : c.phase with
  | syncing todo =>
    simp only [step, hphase]
    split
    · next hne =>
      have hsynced : (fun i => if i ∈ todo.erase (todo.min' hne) then c.store.files i
            else Function.update c.store.synced (todo.min' hne) (c.store.files (todo.min' hne)) i)
          = fun i => if i ∈ todo then c.store.files i else c.store.synced i := by
        funext i
        by_cases hi : i = todo.min' hne
        · simp [hi, todo.min'_mem hne]
        · simp [hi]
      simp only [settled, hphase, hsynced]
    · next hempty => simp [settled, hphase, Finset.not_nonempty_iff_eq_empty.mp hempty]
  | _ => simp only [step, hphase]

/-- **One step.** Whatever is done inside a call, the store it leads to stays the same. -/
theorem settled_step (h : c.Unfinished) {a : RecyclingAction}
    (ha : ∀ segments, a ≠ .process (.crash segments)) :
    (c.stepRecycling a).settled = run WalStorage.step c.settled (c.begins a).toList := by
  cases a with
  | recycle horizon => cases hphase : c.phase <;> simp only [stepRecycling, begins, settled, hphase] <;> rfl
  | process a =>
    show (c.step a).settled = _
    cases a with
    | append startLsn data =>
      cases hphase : c.phase with
      | idle =>
        rw [settled_append hphase]
        simp only [begins, settled, hphase]
        rfl
      | _ => simp only [step, begins, hphase]; rfl
    | write => exact settled_write h
    | sync => exact settled_sync c
    | crash segments => exact absurd rfl (ha segments)
    | _ => cases hphase : c.phase <;> simp only [step, begins, settled, hphase] <;> rfl

theorem settled_run {acts : List RecyclingAction} (hacts : ∀ segments, .process (.crash segments) ∉ acts)
    (h : c.Unfinished) :
    (run stepRecycling c acts).settled = run WalStorage.step c.settled (c.calls acts) := by
  induction acts generalizing c with
  | nil => rfl
  | cons a acts ih =>
    have hrest := ih (fun segments hmem => hacts segments (List.mem_cons_of_mem a hmem)) (h.step a)
    rw [settled_step h fun segments heq => hacts segments (heq ▸ List.mem_cons_self)] at hrest
    exact hrest.trans List.foldl_append.symm

end WalProcess

end AethelDB.Safekeeper
