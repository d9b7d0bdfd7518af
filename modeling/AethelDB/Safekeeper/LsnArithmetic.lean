import AethelDB.Common.WalCodec
import AethelDB.Lib.Checked
import AethelDB.Safekeeper.ReadBack
import AethelDB.Safekeeper.Server

/-!
# Positions that stay within 64 bits

`append`, `read_at`, `end_lsn` and the handlers once more, this time with each sum and difference
of positions as an operation that panics when it leaves the 64-bit range. `Storage`, `Group` and
`Server` have the same functions with the wrapping arithmetic of the release build; the theorems
here say where the two part. The differences that `handle_read` and the replicator take saturate in
the source and do so here.

A read is clamped to the commit position, so its arithmetic stays in range in every state. An append
is only compared with the write position, and the first one on a fresh store with nothing at all:
`Fits` asks of a run that is accepted that it ends below `2^64`. What the calls need besides is that
the ring ends at the write position (`RingEnds`), and that a run which has been stored did fit.
-/

namespace AethelDB.Safekeeper

open AethelDB.Lib

/-! ## The functions with checked positions -/

/-- What a call comes to, unless its position arithmetic panics. -/
abbrev Arith (α : Type) := Checked Empty α

/-- `Lsn(lsn.raw() + n as u64)`. -/
def addLsn (lsn : Lsn) (n : Nat) : Arith Lsn := do
  return ⟨UInt64.ofNat (← Checked.add 64 lsn.raw.toNat n)⟩

def endLsnChecked (req : AppendRequest) : Arith Lsn := addLsn req.startLsn req.payload.length

namespace WalStorage

def writeChunkChecked (s : WalStorage) (bytes : List UInt8) : Arith WalStorage := do
  let writeLsn ← addLsn s.writeLsn bytes.length
  return { s.writeChunk bytes with writeLsn := writeLsn }

/-- The loop of `append`, one segment at a time. -/
def writeChunksChecked : Nat → WalStorage → List UInt8 → Arith WalStorage
  | 0, s, _ => .ok s
  | fuel + 1, s, data =>
    if data.isEmpty then .ok s
    else do
      let s' ← s.writeChunkChecked (data.take s.space)
      writeChunksChecked fuel s' (data.drop s.space)

/-- The eviction loop, one byte at a time. -/
def evictChecked : Nat → WalStorage → Arith WalStorage
  | 0, s => .ok s
  | fuel + 1, s =>
    if s.cfg.ringCapacity < s.ring.length then do
      let ringStart ← addLsn s.ringStart 1
      evictChecked fuel { s with ring := s.ring.drop 1, ringStart := ringStart }
    else .ok s

def extendRingChecked (s : WalStorage) (data : List UInt8) : Arith WalStorage :=
  evictChecked (s.ring ++ data).length { s with ring := s.ring ++ data }

def appendChecked (s : WalStorage) (startLsn : Lsn) (data : List UInt8) :
    Arith (Except StorageError WalStorage) :=
  let s := s.seed startLsn
  if startLsn ≠ s.writeLsn then .ok (.error (.nonContiguous s.writeLsn startLsn))
  else if data.isEmpty then .ok (.ok s)
  else do
    let s' ← writeChunksChecked data.length s data
    let s'' ← s'.extendRingChecked data
    return .ok s''

/-- The slow path of `read_at`, with `done` of `len` bytes read. -/
def readChunksChecked (s : WalStorage) (lsn : Lsn) (len : Nat) :
    Nat → Nat → Arith (Except IoError (List UInt8))
  | 0, _ => .ok (.ok [])
  | fuel + 1, done =>
    if len ≤ done then .ok (.ok [])
    else do
      let pos ← addLsn lsn done
      let offset := pos.raw.toNat % s.cfg.segmentSize
      let k := min (s.cfg.segmentSize - offset) (len - done)
      match s.files (pos.raw.toNat / s.cfg.segmentSize) with
      | none => return .error .notFound
      | some f =>
        if offset + k ≤ f.length then do
          let rest ← readChunksChecked s lsn len fuel (done + k)
          return rest.map ((f.drop offset).take k ++ ·)
        else return .error .unexpectedEof

def readAtChecked (s : WalStorage) (lsn : Lsn) (n : Nat) : Arith ReadOutcome := do
  let stop ← addLsn lsn n
  if lsn < s.startLsn ∨ s.writeLsn < stop then
    return .error (.outOfRange lsn stop s.startLsn s.writeLsn)
  else if s.ringStart ≤ lsn ∧ stop ≤ s.writeLsn ∧ s.ring.isEmpty = false then
    let offset ← Checked.sub lsn.raw.toNat s.ringStart.raw.toNat
    if n = 0 ∨ offset + n ≤ s.ring.length then return .ok ((s.ring.drop offset).take n)
    else return .panicked
  else
    match ← s.readChunksChecked lsn n n 0 with
    | .ok bytes => return .ok bytes
    | .error e => return .error (.io e)

end WalStorage

namespace Node

def storeChecked (n : Node) (req : AppendRequest) : Arith (Except StorageError Node) := do
  let r ← n.storage.appendChecked req.startLsn req.payload
  return r.map fun s => { n with storage := s.flush }

/-- `commit_lsn.saturating_sub(from)` cannot leave the range. -/
def handleReadChecked (n : Node) (commitLsn : Lsn) (req : ReadRequest) : Arith ReadReply :=
  let start := max req.startLsn n.storage.startLsn
  let available := min (commitLsn.raw.toNat - start.raw.toNat) req.maxBytes.toNat
  if available = 0 then .ok (.ok ⟨.ok, commitLsn, start, []⟩)
  else do
    match ← n.storage.readAtChecked start available with
    | .ok payload => return .ok ⟨.ok, commitLsn, start, payload⟩
    | .error e => return .error e
    | .panicked => return .panicked

end Node

/-- `Call.next`; `handle_append` computes `end_lsn` once the run is stored. -/
def Call.nextChecked (n : Node) (c : Call) (acks : List PeerAck) : Arith (Node × CallPc) :=
  match c.pc with
  | .checked term => do
    match ← n.storeChecked c.req with
    | .ok n' => return (n', .stored term n'.storage.flushLsn)
    | .error _ => return (n, .done none)
  | .stored _ _ =>
    match c.kind with
    | .append => do
      let _ ← endLsnChecked c.req
      return c.next n acks
    | .replicate => return c.next n acks
  | _ => return c.next n acks

/-! ## Additions -/

theorem addLsn_eq {lsn : Lsn} {n : Nat} (h : lsn.raw.toNat + n < 2 ^ 64) :
    addLsn lsn n = .ok ⟨lsn.raw + UInt64.ofNat n⟩ := by
  rw [addLsn, Checked.add_eq h, Checked.bind_ok, UInt64.ofNat_add, UInt64.ofNat_toNat]
  rfl

theorem addLsn_panics {lsn : Lsn} {n : Nat} (h : 2 ^ 64 ≤ lsn.raw.toNat + n) :
    addLsn lsn n = .error (.panic "attempt to add with overflow") := by
  rw [addLsn, Checked.add, if_neg (not_lt_of_ge h)]
  rfl

/-- The position arithmetic panics. -/
def Panics {α : Type} (x : Arith α) : Prop := ∃ what, x = .error (.panic what)

theorem Panics.ne_ok {α : Type} {x : Arith α} (h : Panics x) (a : α) : x ≠ .ok a := by
  obtain ⟨what, rfl⟩ := h
  intro heq
  cases heq

theorem Panics.bind {α β : Type} {x : Arith α} (h : Panics x) (f : α → Arith β) :
    Panics (x >>= f) := by
  obtain ⟨what, rfl⟩ := h
  exact ⟨what, rfl⟩

/-! ## Appending -/

namespace WalStorage

variable {s : WalStorage} {data : List UInt8} {startLsn : Lsn}

theorem writeChunkChecked_eq {bytes : List UInt8}
    (hfit : s.writeLsn.raw.toNat + bytes.length < 2 ^ 64) :
    s.writeChunkChecked bytes = .ok (s.writeChunk bytes) := by
  rw [writeChunkChecked, addLsn_eq hfit]
  rfl

/-- A round moves the write position by as much as it shortens what is left. -/
theorem chunk_sum (s : WalStorage) (data : List UInt8) :
    (data.take s.space).length + (data.drop s.space).length = data.length := by
  rw [← List.length_append, List.take_append_drop]

theorem writeChunksChecked_eq :
    ∀ {fuel : Nat} {s : WalStorage} {data : List UInt8},
      s.writeLsn.raw.toNat + data.length < 2 ^ 64 →
      writeChunksChecked fuel s data = .ok (writeChunks fuel s data) := by
  intro fuel
  induction fuel with
  | zero => exact fun _ => rfl
  | succ fuel ih =>
    intro s data hfit
    have hsum := chunk_sum s data
    have hchunk : s.writeLsn.raw.toNat + (data.take s.space).length < 2 ^ 64 := by omega
    have hmoved : (s.writeChunk (data.take s.space)).writeLsn.raw.toNat
        = s.writeLsn.raw.toNat + (data.take s.space).length := toNat_add_ofNat hchunk
    unfold writeChunksChecked writeChunks
    split
    · rfl
    · rw [writeChunkChecked_eq hchunk, Checked.bind_ok]
      exact ih (by omega)

/-- Some round takes the write position past the end of the range. -/
theorem writeChunksChecked_panics :
    ∀ {fuel : Nat} {s : WalStorage} {data : List UInt8}, data.length ≤ fuel →
      2 ^ 64 ≤ s.writeLsn.raw.toNat + data.length → Panics (writeChunksChecked fuel s data) := by
  intro fuel
  induction fuel with
  | zero =>
    intro s data hfuel hover
    have hlt := s.writeLsn.raw.toNat_lt
    omega
  | succ fuel ih =>
    intro s data hfuel hover
    have hlt := s.writeLsn.raw.toNat_lt
    have hsum := chunk_sum s data
    have hspace := s.space_pos
    unfold writeChunksChecked
    split
    · next hnil =>
      rw [List.isEmpty_iff.mp hnil, List.length_nil] at hover
      omega
    · by_cases hchunk : s.writeLsn.raw.toNat + (data.take s.space).length < 2 ^ 64
      · have hmoved : (s.writeChunk (data.take s.space)).writeLsn.raw.toNat
            = s.writeLsn.raw.toNat + (data.take s.space).length := toNat_add_ofNat hchunk
        rw [writeChunkChecked_eq hchunk, Checked.bind_ok]
        refine ih ?_ (by omega)
        rw [List.length_drop]
        omega
      · refine Panics.bind ?_ _
        exact Panics.bind ⟨_, addLsn_panics (by omega)⟩ _

/-- Byte by byte, the loop evicts what is past the capacity. -/
theorem evictChecked_eq :
    ∀ {fuel : Nat} {s : WalStorage}, s.ring.length ≤ fuel →
      s.ringStart.raw.toNat + (s.ring.length - s.cfg.ringCapacity) < 2 ^ 64 →
      evictChecked fuel s = .ok { s with
        ring := s.ring.drop (s.ring.length - s.cfg.ringCapacity)
        ringStart := ⟨s.ringStart.raw + UInt64.ofNat (s.ring.length - s.cfg.ringCapacity)⟩ } := by
  have hzero : ∀ raw : UInt64, raw + UInt64.ofNat 0 = raw := UInt64.add_zero
  intro fuel
  induction fuel with
  | zero =>
    intro s hfuel _
    rw [Nat.sub_eq_zero_of_le (by omega), List.drop_zero, hzero]
    rfl
  | succ fuel ih =>
    intro s hfuel hfit
    unfold evictChecked
    split
    · next hfull =>
      -- one byte fewer in the ring, one fewer to evict, and one position further on
      have hone : (⟨s.ringStart.raw + UInt64.ofNat 1⟩ : Lsn).raw.toNat = s.ringStart.raw.toNat + 1 :=
        toNat_add_ofNat (by omega)
      have hleft : (s.ring.drop 1).length - s.cfg.ringCapacity + 1
          = s.ring.length - s.cfg.ringCapacity := by
        rw [List.length_drop]
        omega
      have hfuel : (s.ring.drop 1).length ≤ fuel := by
        rw [List.length_drop]
        omega
      have hfit : (⟨s.ringStart.raw + UInt64.ofNat 1⟩ : Lsn).raw.toNat
          + ((s.ring.drop 1).length - s.cfg.ringCapacity) < 2 ^ 64 := by omega
      rw [addLsn_eq (by omega), Checked.bind_ok, ih hfuel hfit]
      dsimp only
      rw [List.drop_drop, UInt64.add_assoc, ← UInt64.ofNat_add, Nat.add_comm 1, hleft]
    · rw [Nat.sub_eq_zero_of_le (by omega), List.drop_zero, hzero]

theorem extendRingChecked_eq (hfit : s.ringStart.raw.toNat + s.ring.length + data.length < 2 ^ 64) :
    s.extendRingChecked data = .ok (s.extendRing data) := by
  have hevicted : s.ringStart.raw.toNat + ((s.ring ++ data).length - s.cfg.ringCapacity) < 2 ^ 64 := by
    rw [List.length_append]
    omega
  exact evictChecked_eq (le_refl _) hevicted

/-- The ring ends where the log does. -/
def RingEnds (s : WalStorage) : Prop :=
  s.ringStart.raw.toNat + s.ring.length = s.writeLsn.raw.toNat

/-- `append` goes on with a run that starts here. -/
def Accepts (s : WalStorage) (startLsn : Lsn) : Prop := startLsn = (s.seed startLsn).writeLsn

instance (s : WalStorage) (startLsn : Lsn) : Decidable (s.Accepts startLsn) :=
  inferInstanceAs (Decidable (_ = _))

theorem RingEnds.seed (h : s.RingEnds) (startLsn : Lsn) : (s.seed startLsn).RingEnds := by
  unfold WalStorage.seed
  split
  · next hfresh =>
    -- a fresh store is at position 0, so there is nothing in the ring
    rw [Bool.and_eq_true, Bool.not_eq_true', isValid_eq_false_iff] at hfresh
    have hring : s.ring.length = 0 := by
      unfold RingEnds at h
      omega
    show startLsn.raw.toNat + s.ring.length = startLsn.raw.toNat
    rw [hring, Nat.add_zero]
  · exact h

/-- Past the comparison: what is written, and that the ring ends with it. -/
theorem RingEnds.written (h : s.RingEnds) (hfit : s.writeLsn.raw.toNat + data.length < 2 ^ 64) :
    ((writeChunks data.length s data).extendRing data).RingEnds := by
  obtain ⟨-, hring, hstart⟩ := writeChunks_frame data.length s data
  have hwrote := (wrote_writeChunks le_rfl hfit).write
  unfold RingEnds at h ⊢
  rw [ringEnd_extendRing (by rw [hring, hstart]; omega), hring, hstart, h]
  exact hwrote.symm

theorem RingEnds.append (h : s.RingEnds)
    (hfit : s.Accepts startLsn → startLsn.raw.toNat + data.length < 2 ^ 64) {s' : WalStorage}
    (happ : s.append startLsn data = .ok s') : s.Accepts startLsn ∧ s'.RingEnds := by
  unfold WalStorage.append at happ
  dsimp only at happ
  split at happ
  · cases happ
  · next hacc =>
    rw [not_not] at hacc
    refine ⟨hacc, ?_⟩
    have hseeded := h.seed startLsn
    have hfit := hfit hacc
    split at happ
    · cases happ
      exact hseeded
    · cases happ
      refine hseeded.written ?_
      rwa [← hacc]

theorem RingEnds.flush (h : s.RingEnds) : s.flush.RingEnds := h

theorem appendChecked_eq (h : s.RingEnds)
    (hfit : s.Accepts startLsn → startLsn.raw.toNat + data.length < 2 ^ 64) :
    s.appendChecked startLsn data = .ok (s.append startLsn data) := by
  unfold appendChecked WalStorage.append
  dsimp only
  split
  · rfl
  · next hacc =>
    rw [not_not] at hacc
    have hfit : (s.seed startLsn).writeLsn.raw.toNat + data.length < 2 ^ 64 := by
      rw [← hacc]
      exact hfit hacc
    split
    · rfl
    · obtain ⟨-, hring, hstart⟩ := writeChunks_frame data.length (s.seed startLsn) data
      have hseeded : (s.seed startLsn).RingEnds := h.seed startLsn
      unfold RingEnds at hseeded
      have hend : (writeChunks data.length (s.seed startLsn) data).ringStart.raw.toNat
          + (writeChunks data.length (s.seed startLsn) data).ring.length + data.length < 2 ^ 64 := by
        rw [hring, hstart, hseeded]
        exact hfit
      rw [writeChunksChecked_eq hfit, Checked.bind_ok, extendRingChecked_eq hend]
      rfl

theorem appendChecked_panics (hacc : s.Accepts startLsn)
    (hover : 2 ^ 64 ≤ startLsn.raw.toNat + data.length) :
    Panics (s.appendChecked startLsn data) := by
  have hlt := startLsn.raw.toNat_lt
  unfold Accepts at hacc
  unfold appendChecked
  dsimp only
  rw [if_neg (not_not_intro hacc), if_neg]
  · refine Panics.bind (writeChunksChecked_panics le_rfl ?_) _
    rwa [← hacc]
  · intro hnil
    rw [List.isEmpty_iff.mp hnil, List.length_nil] at hover
    omega

/-! ## Reading -/

theorem readChunksChecked_eq {lsn : Lsn} {len : Nat} (hfit : lsn.raw.toNat + len < 2 ^ 64) :
    ∀ {fuel done : Nat}, done ≤ len →
      s.readChunksChecked lsn len fuel done
        = .ok (s.readChunks fuel (lsn.raw + UInt64.ofNat done) (len - done)) := by
  intro fuel
  induction fuel with
  | zero => exact fun _ => rfl
  | succ fuel ih =>
    intro done hdone
    unfold readChunksChecked readChunks
    by_cases hall : len ≤ done
    · rw [if_pos hall, if_pos (by omega)]
    · rw [if_neg hall, if_neg (by omega), addLsn_eq (by omega), Checked.bind_ok]
      dsimp only
      cases s.files ((lsn.raw + UInt64.ofNat done).toNat / s.cfg.segmentSize) with
      | none => rfl
      | some f =>
        dsimp only
        split
        · -- the position of the next round is that of this one and its bytes
          rw [ih (by omega), Checked.bind_ok, UInt64.ofNat_add, UInt64.add_assoc, Nat.sub_sub]
          rfl
        · rfl

theorem readAtChecked_eq {lsn : Lsn} {n : Nat} (hfit : lsn.raw.toNat + n < 2 ^ 64) :
    s.readAtChecked lsn n = .ok (s.readAt lsn n) := by
  unfold readAtChecked readAt
  rw [addLsn_eq hfit, Checked.bind_ok]
  dsimp only
  split
  · rfl
  · split
    · next hring =>
      have hle : s.ringStart.raw ≤ lsn.raw := UInt64.le_iff_toNat_le.mpr hring.1
      rw [Checked.sub_eq hring.1, Checked.bind_ok, UInt64.toNat_sub_of_le _ _ hle]
      split <;> rfl
    · have hstart : lsn.raw + UInt64.ofNat 0 = lsn.raw := UInt64.add_zero lsn.raw
      rw [readChunksChecked_eq hfit (Nat.zero_le n), Checked.bind_ok, hstart, Nat.sub_zero]
      cases s.readChunks n lsn.raw n <;> rfl

end WalStorage

/-- **Reads stay in range**, in any state. -/
theorem Node.handleReadChecked_eq (n : Node) (commitLsn : Lsn) (req : ReadRequest) :
    n.handleReadChecked commitLsn req = .ok (n.handleRead commitLsn req) := by
  unfold handleReadChecked handleRead
  dsimp only
  split
  · rfl
  · next havail =>
    have hlt := commitLsn.raw.toNat_lt
    rw [WalStorage.readAtChecked_eq (by omega), Checked.bind_ok]
    cases n.storage.readAt _ _ <;> rfl

/-! ## Calls -/

variable {req : AppendRequest}

/-- The run ends below `2^64`. -/
def EndsInRange (req : AppendRequest) : Prop := req.startLsn.raw.toNat + req.payload.length < 2 ^ 64

instance (req : AppendRequest) : Decidable (EndsInRange req) := inferInstanceAs (Decidable (_ < _))

theorem endLsnChecked_eq (h : EndsInRange req) : endLsnChecked req = .ok req.endLsn := addLsn_eq h

/-- The replicator sends peers a run that starts where this one does. -/
theorem startLsn_replicateRequest (h : EndsInRange req) (term : Term) :
    (replicateRequest term req.endLsn req.payload).startLsn = req.startLsn := by
  have hend : req.endLsn.raw.toNat = req.startLsn.raw.toNat + req.payload.length :=
    WalStorage.toNat_add_ofNat h
  refine Lsn.toNat_injective ?_
  simp only [replicateRequest, hend, Nat.add_sub_cancel, UInt64.ofNat_toNat]

theorem Node.storeChecked_eq {n : Node} (h : n.storage.RingEnds)
    (hfit : n.storage.Accepts req.startLsn → EndsInRange req) :
    n.storeChecked req = .ok (n.store req) := by
  rw [storeChecked, WalStorage.appendChecked_eq h hfit, Checked.bind_ok, store, WalStorage.store]
  cases n.storage.append req.startLsn req.payload <;> rfl

namespace Call

variable {n : Node} {c : Call} {acks : List PeerAck}

/-- Past its store, with `end_lsn` or the replicator to come. -/
def hasStored (c : Call) : Bool :=
  match c.pc with
  | .stored _ _ => true
  | .recorded _ => true
  | _ => false

/-- A step of a call as it should be. -/
structure InRange (n : Node) (c : Call) (acks : List PeerAck) : Prop where
  /-- No sum or difference of positions leaves the range. -/
  computed : c.nextChecked n acks = .ok (c.next n acks)
  /-- A run for which one would is turned away, and the node stays as it is. -/
  rejected : ¬ EndsInRange c.req → ∀ term, c.pc = .checked term → c.next n acks = (n, .done none)
  /-- The difference that the replicator takes does not saturate. -/
  forwarded : ∀ flushLsn, c.pc = .recorded flushLsn →
    (replicateRequest c.req.term c.req.endLsn c.req.payload).startLsn = c.req.startLsn

/-- A run that the store goes on with ends in range. -/
def Fits (n : Node) (c : Call) : Prop :=
  ∀ term, c.pc = .checked term → n.storage.Accepts c.req.startLsn → EndsInRange c.req

theorem InRange.fits (h : c.InRange n acks) : c.Fits n := by
  intro term hpc hacc
  by_contra hover
  have hpanics : Panics (c.nextChecked n acks) := by
    rw [nextChecked, hpc]
    refine Panics.bind (Panics.bind ?_ _) _
    exact WalStorage.appendChecked_panics hacc (not_lt.mp hover)
  exact hpanics.ne_ok _ h.computed

theorem next_cases (n : Node) (c : Call) (acks : List PeerAck) :
    (c.next n acks).1.storage = n.storage
        ∧ (hasStored { c with pc := (c.next n acks).2 } = true → c.hasStored = true)
      ∨ ∃ term s, c.pc = .checked term ∧ n.storage.append c.req.startLsn c.req.payload = .ok s
        ∧ (c.next n acks).1.storage = s.flush := by
  unfold next
  split
  · split <;> exact .inl ⟨rfl, fun h => absurd h Bool.false_ne_true⟩
  · next term hpc =>
    cases happ : n.storage.append c.req.startLsn c.req.payload with
    | error e =>
      simp only [Node.store, WalStorage.store, happ, Except.map]
      exact .inl ⟨trivial, fun h => absurd h Bool.false_ne_true⟩
    | ok s =>
      simp only [Node.store, WalStorage.store, happ, Except.map]
      exact .inr ⟨term, s, hpc, rfl, rfl⟩
  · next hpc =>
    have hstored : c.hasStored = true := by rw [hasStored, hpc]
    split <;> exact .inl ⟨rfl, fun _ => hstored⟩
  · next hpc =>
    have hstored : c.hasStored = true := by rw [hasStored, hpc]
    exact .inl ⟨rfl, fun _ => hstored⟩
  · exact .inl ⟨(recordAcks_consensus n _).1, fun h => absurd h Bool.false_ne_true⟩
  · exact .inl ⟨rfl, fun h => absurd h Bool.false_ne_true⟩

theorem hasStored_kill (c : Call) : c.kill.hasStored = false := by
  obtain ⟨kind, req, pc⟩ := c
  cases pc <;> rfl

theorem next_of_refused {term : Term} (hpc : c.pc = .checked term)
    (hacc : ¬ n.storage.Accepts c.req.startLsn) : c.next n acks = (n, .done none) := by
  have hrefused : n.storage.append c.req.startLsn c.req.payload
      = .error (.nonContiguous (n.storage.seed c.req.startLsn).writeLsn c.req.startLsn) := if_pos hacc
  rw [next, hpc]
  simp only [Node.store, WalStorage.store, hrefused, Except.map]

theorem Fits.inRange (h : c.Fits n) (hring : n.storage.RingEnds)
    (hstored : c.hasStored = true → EndsInRange c.req) : c.InRange n acks where
  computed := by
    unfold nextChecked
    split
    · next term hpc =>
      rw [Node.storeChecked_eq hring (h term hpc), Checked.bind_ok, next, hpc]
      cases n.store c.req <;> rfl
    · next hpc =>
      have hends : EndsInRange c.req := hstored (by rw [hasStored, hpc])
      split
      · rw [endLsnChecked_eq hends, Checked.bind_ok]
        rfl
      · rfl
    · rfl
  rejected hover term hpc := next_of_refused hpc fun hacc => hover (h term hpc hacc)
  forwarded flushLsn hpc := startLsn_replicateRequest (hstored (by rw [hasStored, hpc])) _

end Call

/-! ## Runs -/

/-- What happens on a node: the steps of `Server`, reads, each with the commit position it has read
before, and recycling. -/
inductive PositionAction where
  | server (a : ServerAction)
  | read (commitLsn : Lsn) (req : ReadRequest)
  | recycle (horizon : Lsn)

namespace Server

def stepPositions (s : Server) : PositionAction → Server
  | .server a => s.step a
  | .read _ _ => s
  | .recycle horizon =>
    { s with node := { s.node with storage := (s.node.storage.removeSegmentsBefore horizon).1 } }

def afterPositions (s : Server) (acts : List PositionAction) : Server := run stepPositions s acts

/-- The action's position arithmetic stays in range. -/
def InRange (s : Server) : PositionAction → Prop
  | .server (.proceed k acks) => ∀ c, s.calls[k]? = some c → c.InRange s.node acks
  | .read commitLsn req =>
    s.node.handleReadChecked commitLsn req = .ok (s.node.handleRead commitLsn req)
  | _ => True

/-- A run that is about to be stored ends in range, if the store goes on with it. -/
def Fits (s : Server) : PositionAction → Prop
  | .server (.proceed k _) => ∀ c, s.calls[k]? = some c → c.Fits s.node
  | _ => True

/-- What the steps keep. -/
structure Ordered (s : Server) : Prop where
  ring : s.node.storage.RingEnds
  stored : ∀ c ∈ s.calls, c.hasStored = true → EndsInRange c.req

theorem ordered_start (cfg : WalConfig) (segments : Segments) (metaFile : Option (Lsn × Lsn))
    (nodeId : NodeId) (members : List NodeId) :
    (start (.openDir cfg segments metaFile) nodeId members).Ordered :=
  ⟨rfl, nofun⟩

theorem Ordered.inRange_iff {s : Server} (h : s.Ordered) (a : PositionAction) :
    s.InRange a ↔ s.Fits a := by
  cases a with
  | server a =>
    cases a with
    | proceed k acks =>
      refine forall_congr' fun c => forall_congr' fun hc => ⟨fun hin => hin.fits, fun hfit => ?_⟩
      exact hfit.inRange h.ring (h.stored c (List.mem_of_getElem? hc))
    | _ => exact Iff.rfl
  | read commitLsn req => exact iff_of_true (s.node.handleReadChecked_eq commitLsn req) trivial
  | recycle horizon => exact Iff.rfl

theorem Ordered.proceed {s : Server} (h : s.Ordered) {k : Nat} {c : Call} (hc : s.calls[k]? = some c)
    (hfit : c.Fits s.node) (acks : List PeerAck) : (s.step (.proceed k acks)).Ordered := by
  simp only [Server.step, hc]
  rcases c.next_cases s.node acks with ⟨hsame, hback⟩ | ⟨term, storage, hpc, happ, hnew⟩
  · refine ⟨by simpa only [hsame] using h.ring, fun c' hc' hst => ?_⟩
    rcases List.mem_or_eq_of_mem_set hc' with hmem | rfl
    · exact h.stored c' hmem hst
    · exact h.stored c (List.mem_of_getElem? hc) (hback hst)
  · obtain ⟨hacc, hring⟩ := h.ring.append (hfit term hpc) happ
    refine ⟨by simpa only [hnew] using hring.flush, fun c' hc' hst => ?_⟩
    rcases List.mem_or_eq_of_mem_set hc' with hmem | rfl
    · exact h.stored c' hmem hst
    · exact hfit term hpc hacc

/-- **One step** that fits. -/
theorem Ordered.step {s : Server} (h : s.Ordered) {a : PositionAction} (ha : s.Fits a) :
    (s.stepPositions a).Ordered := by
  cases a with
  | server a =>
    cases a with
    | call kind req =>
      refine ⟨h.ring, Group.forall_concat h.stored fun hst => absurd hst Bool.false_ne_true⟩
    | proceed k acks =>
      cases hc : s.calls[k]? with
      | none =>
        simp only [stepPositions, Server.step, hc]
        exact h
      | some c => exact h.proceed hc (ha c hc) acks
    | restart =>
      refine ⟨rfl, fun c hc hst => ?_⟩
      obtain ⟨c', -, rfl⟩ := List.mem_map.mp hc
      simp [Call.hasStored_kill] at hst
    | _ => exact ⟨h.ring, h.stored⟩
  | read commitLsn req => exact h
  | recycle horizon =>
    obtain ⟨start, files, synced, heq, -⟩ := s.node.storage.removeSegmentsBefore_eq horizon
    refine ⟨?_, h.stored⟩
    simp only [stepPositions, heq]
    exact h.ring

end Server

/-- **Position arithmetic stays in range**, on whatever directory the node is started, in exactly
the runs in which every run of WAL that the store goes on with ends below `2^64`. -/
theorem positions_in_range_iff (cfg : WalConfig) (segments : Segments)
    (metaFile : Option (Lsn × Lsn)) (nodeId : NodeId) (members : List NodeId)
    (acts : List PositionAction) :
    let s := Server.start (.openDir cfg segments metaFile) nodeId members
    Along (fun pre a => (s.afterPositions pre).InRange a) acts
      ↔ Along (fun pre a => (s.afterPositions pre).Fits a) acts := by
  intro s
  have hstart : s.Ordered := Server.ordered_start cfg segments metaFile nodeId members
  have hstep : ∀ pre a, (s.afterPositions pre).Fits a → (run Server.stepPositions s pre).Ordered →
      (Server.stepPositions (run Server.stepPositions s pre) a).Ordered :=
    fun _ _ ha hs => hs.step ha
  exact along_iff_of_invariant hstart hstep (fun _ a hs => hs.inRange_iff a) acts

/-- One byte at the last position. -/
def lastByte : AppendRequest := ⟨TenantId.ZERO, TimelineId.ZERO, 0, Lsn.MAX, [7]⟩

/-- The request arrives, passes the term check, and is stored. -/
def lastByteRun : List PositionAction :=
  [.server (.call .append lastByte), .server (.proceed 0 []), .server (.proceed 0 [])]

/-- On a fresh store the byte is accepted. The position after it is past the range: with overflow
checks the addition panics, and without them the log goes from the last position to 0. -/
theorem seeding_append_wraps :
    AppendRequest.decode lastByte.encode = .ok lastByte
      ∧ ¬ Along (fun pre a => (freshServer.afterPositions pre).InRange a) lastByteRun
      ∧ (freshServer.afterPositions lastByteRun).node.storage.startLsn = Lsn.MAX
      ∧ (freshServer.afterPositions lastByteRun).node.storage.writeLsn = 0 := by
  refine ⟨AppendRequest.decode_encodeAs (.inl rfl) (by decide), fun h => ?_, rfl, rfl⟩
  -- the call is past its term check
  have hcall : (freshServer.afterPositions (lastByteRun.take 2)).calls[0]?
      = some ⟨.append, lastByte, .checked 0⟩ := rfl
  have hstep := (h (lastByteRun.take 2) (.server (.proceed 0 [])) [] rfl) _ hcall
  have hends := hstep.fits 0 rfl rfl
  exact absurd hends (by decide)

end AethelDB.Safekeeper
