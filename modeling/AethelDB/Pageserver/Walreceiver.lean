import AethelDB.Pageserver.WalIngest
import AethelDB.Safekeeper.ReadBack

/-!
# The WAL receiver

`pageserver/src/walreceiver.rs`. The receiver asks a safekeeper for committed WAL from its
cursor on, feeds each chunk to a long-lived decoder and ingests the records that come out.
The cursor is how far WAL has been *fed*, not how far it has been decoded, so a record cut
by the end of a chunk waits in the decoder for the next one.

A `Link` is a safekeeper node, a receiver and the repository it fills. The node's store is
appended to, flushed and recycled at any time, and flush reports move its commit position.
`handle_read` reads the commit position under one lock and the WAL under another, so a poll
is two steps between which the node goes on: `request` and `answer`. Messages arrive as
they were sent; a request that fails on the safekeeper closes the connection.

What the receiver may rely on is that the log carries a WAL stream from `start_lsn` on
(`ByteLog.Carries`), in any state of arrival, and ends below `2^64`. `NoGap` is the condition under which
everything arrives: when a read is answered, the retained floor has not passed the cursor,
or nothing above the floor is committed yet. Otherwise the answer is moved up to the floor,
and the receiver starts a new decoder there, although a decoder has to start at a record
boundary and the floor is a segment boundary.
-/

namespace AethelDB.Pageserver

open AethelDB.Lib AethelDB.Safekeeper

structure WalReceiverConfig where
  tenant : TenantId
  timeline : TimelineId
  startLsn : Lsn
  /-- Maximum WAL bytes to request per round trip. -/
  maxChunk : UInt32

/-- A connection that pulls committed WAL into a timeline. -/
structure WalReceiver where
  cfg : WalReceiverConfig
  connected : Bool
  /-- `none` until the first non-empty chunk arrives. -/
  decoder : Option WalStreamDecoder
  cursor : Lsn

inductive PollError where
  | closed
  | wal (e : WalDecodeError)
deriving DecidableEq

/-- The number of records ingested by a poll, or its error. -/
abbrev PollResult := Except PollError Nat

/-- What the second half of a poll leaves behind. -/
structure Received where
  receiver : WalReceiver
  repo : Repository
  handed : List (Lsn × List UInt8)
  result : PollResult

namespace WalReceiver

def connect (cfg : WalReceiverConfig) : WalReceiver := ⟨cfg, true, none, cfg.startLsn⟩

def request (r : WalReceiver) : ReadRequest :=
  ⟨r.cfg.tenant, r.cfg.timeline, r.cursor, r.cfg.maxChunk⟩

/-- The decoder a chunk is fed to: a fresh one for the first chunk, and when the safekeeper
has moved the cursor forward. -/
def decoderFor (r : WalReceiver) (resp : ReadResponse) : WalStreamDecoder :=
  match r.decoder with
  | some d => if resp.startLsn ≠ r.cursor then WalStreamDecoder.new resp.startLsn else d
  | none => WalStreamDecoder.new resp.startLsn

/-- `poll_once` from the response on. The cursor moves before anything is decoded. -/
def receive (codecs : Codecs) (r : WalReceiver) (repo : Repository) (resp : ReadResponse) :
    Received :=
  if resp.payload.isEmpty then ⟨r, repo, [], .ok 0⟩
  else
    let out := ingestAll codecs ((r.decoderFor resp).feedBytes resp.payload) repo
    ⟨{ r with
        decoder := some out.decoder
        cursor := ⟨resp.startLsn.raw + UInt64.ofNat resp.payload.length⟩ },
      out.repo, out.handed, out.result.mapError PollError.wal⟩

end WalReceiver

/-! ## A safekeeper and a receiver -/

/-- What is fixed for a run; `repo` is the timeline's repository when the receiver
connects. -/
structure LinkConfig where
  group : GroupConfig
  node : NodeId
  receiver : WalReceiverConfig
  codecs : Codecs
  repo : Repository

/-- The first position the receiver asks for. -/
abbrev LinkConfig.start (cfg : LinkConfig) : Nat := cfg.receiver.startLsn.raw.toNat

structure Link where
  node : Node
  receiver : WalReceiver
  repo : Repository
  /-- The commit position read for the request in progress. -/
  pending : Option Lsn
  /-- Every record handed to `ingest_record` so far. -/
  handed : List (Lsn × List UInt8)
  polls : List PollResult

inductive LinkAction where
  | store (a : StorageAction)
  /-- `node` has flushed up to `lsn`. -/
  | recordFlush (node : NodeId) (lsn : Lsn)
  /-- A poll sends its request, and `handle_read` reads the commit position. -/
  | request
  /-- `handle_read` reads the WAL, and the poll goes on with the response. -/
  | answer

def LinkAction.stored : LinkAction → Option StorageAction
  | .store a => some a
  | _ => none

namespace Link

def new (cfg : LinkConfig) : Link where
  node := Node.new cfg.group cfg.node
  receiver := WalReceiver.connect cfg.receiver
  repo := cfg.repo
  pending := none
  handed := []
  polls := []

/-- The receiver takes the reply to its request. -/
def receive (codecs : Codecs) (l : Link) (reply : ReadReply) : Link :=
  match reply with
  | .ok resp =>
    let out := l.receiver.receive codecs l.repo resp
    { l with
      pending := none
      receiver := out.receiver
      repo := out.repo
      handed := l.handed ++ out.handed
      polls := l.polls ++ [out.result] }
  | _ =>
    { l with
      pending := none
      receiver := { l.receiver with connected := false }
      polls := l.polls ++ [.error .closed] }

def step (codecs : Codecs) (l : Link) : LinkAction → Link
  | .store a => { l with node := { l.node with storage := l.node.storage.step a } }
  | .recordFlush node lsn => { l with node := l.node.recordFlush node lsn }
  | .request =>
    if l.receiver.connected then { l with pending := some (l.pending.getD l.node.commitLsn) }
    else { l with polls := l.polls ++ [.error .closed] }
  | .answer =>
    match l.pending with
    | some commitLsn => l.receive codecs (l.node.handleRead commitLsn l.receiver.request)
    | none => l

def after (cfg : LinkConfig) (acts : List LinkAction) : Link :=
  run (step cfg.codecs) (new cfg) acts

/-- Only flushed WAL is recycled, and when a read is answered the retained floor is not
above the cursor, or nothing above it is committed. -/
def NoGap (l : Link) : LinkAction → Prop
  | .store (.removeSegmentsBefore horizon) => horizon ≤ l.node.storage.flushLsn
  | .answer => l.node.storage.startLsn ≤ l.receiver.cursor ∨
      ∀ commitLsn ∈ l.pending, commitLsn ≤ l.node.storage.startLsn
  | _ => True

instance (l : Link) (a : LinkAction) : Decidable (l.NoGap a) := by
  unfold NoGap
  split <;> infer_instance

end Link

/-- The log of a run: what was appended to the node's store. -/
def linkLog (acts : List LinkAction) : ByteLog UInt8 := appended (acts.filterMap LinkAction.stored)

/-! ## The log -/

theorem grows_appended_concat (pre : List StorageAction) (a : StorageAction) :
    ByteLog.Grows (appended pre) (appended (pre ++ [a])) := by
  rw [appended, appended, run_concat]
  cases a with
  | append startLsn data =>
    simp only
    cases hlog : ByteLog.append (run _ ByteLog.blank pre) startLsn.raw.toNat data with
    | none => exact ByteLog.Grows.refl _
    | some log' => exact ByteLog.grows_append hlog
  | flush => exact ByteLog.Grows.refl _
  | removeSegmentsBefore horizon => exact ByteLog.Grows.refl _

theorem linkLog_concat (pre : List LinkAction) (a : LinkAction) :
    linkLog (pre ++ [a]) = appended (pre.filterMap LinkAction.stored ++ a.stored.toList) := by
  rw [linkLog, List.filterMap_append]
  cases a <;> rfl

theorem grows_linkLog_concat (pre : List LinkAction) (a : LinkAction) :
    ByteLog.Grows (linkLog pre) (linkLog (pre ++ [a])) := by
  rw [linkLog_concat]
  cases a with
  | store a => exact grows_appended_concat _ a
  | recordFlush node lsn => exact (List.append_nil _).symm ▸ ByteLog.Grows.refl _
  | request => exact (List.append_nil _).symm ▸ ByteLog.Grows.refl _
  | answer => exact (List.append_nil _).symm ▸ ByteLog.Grows.refl _

/-! ## The receiver keeps up with the stream -/

namespace Link

/-- No record has been refused so far. -/
def Accepting (polls : List PollResult) : Prop := ∀ e, .error (.wal e) ∉ polls

theorem accepting_concat {polls : List PollResult} {result : PollResult} :
    Accepting (polls ++ [result]) ↔ Accepting polls ∧ ∀ e, result ≠ .error (.wal e) := by
  constructor
  · intro h
    refine ⟨fun e he => h e (List.mem_append_left _ he), ?_⟩
    rintro e rfl
    exact h e (List.mem_append_right _ (List.mem_singleton.mpr rfl))
  · rintro ⟨hpolls, hresult⟩ e he
    rcases List.mem_append.mp he with he | he
    · exact hpolls e he
    · exact hresult e (List.mem_singleton.mp he).symm

/-- The records `done` of `recs` have been handed on and the decoder stands behind them; as
long as none is refused, they are all that have arrived, and all are ingested. -/
def Follows (H : PageHeaders) (cfg : LinkConfig) (recs : List RecordImage) (l : Link) : Prop :=
  ∃ done rest, recs = done ++ rest ∧ l.handed = H.records cfg.start done ∧
    Between H cfg.start done rest
      (l.receiver.decoder.getD (WalStreamDecoder.new cfg.receiver.startLsn))
      l.receiver.cursor.raw.toNat ∧
    (Accepting l.polls →
      H.whole (H.fin cfg.start done) rest l.receiver.cursor.raw.toNat = 0 ∧
        cfg.repo.ingestRecords cfg.codecs l.handed = .ok l.repo)

/-- What holds between the polls: `recs` are the records of the log from `start_lsn` on. -/
structure Inv (H : PageHeaders) (cfg : LinkConfig) (recs : List RecordImage) (log : ByteLog UInt8)
    (l : Link) : Prop where
  retains : l.node.storage.Retains log
  pending : ∀ commitLsn ∈ l.pending, commitLsn ≤ l.node.commitLsn
  cursor : l.receiver.cursor ≤ max cfg.receiver.startLsn l.node.commitLsn
  /-- Before the first chunk the cursor is where it started. -/
  unread : l.receiver.decoder = none → l.receiver.cursor = cfg.receiver.startLsn
  /-- What has been fed is in the log. -/
  reached : cfg.receiver.startLsn < l.receiver.cursor →
    log.seed ≤ cfg.start ∧ l.receiver.cursor.raw.toNat ≤ log.fin
  follows : l.Follows H cfg recs
  refused : ∀ e, .error (.wal e) ∈ l.polls →
    ∃ r ∈ recs, ∃ lsn, decodeWalRecord lsn r.bytes = .error e

variable {H : PageHeaders} {cfg : LinkConfig} {recs : List RecordImage} {log : ByteLog UInt8}
  {l : Link}

theorem inv_new (H : PageHeaders) (cfg : LinkConfig) (recs : List RecordImage) :
    Inv H cfg recs (linkLog []) (new cfg) where
  retains := WalStorage.retains_new _
  pending := fun _ h => absurd h (by simp [new])
  cursor := le_max_left _ _
  unread := fun _ => rfl
  reached := fun h => absurd h (lt_irrefl _)
  follows := ⟨[], recs, rfl, rfl, Between.initial H _ recs, fun _ => ⟨H.whole_start _ recs, rfl⟩⟩
  refused := fun _ h => absurd h (by simp [new])

theorem Inv.grow {log' : ByteLog UInt8} {node' : Node} (h : Inv H cfg recs log l)
    (hg : ByteLog.Grows log log') (hr : node'.storage.Retains log')
    (hcommit : l.node.commitLsn ≤ node'.commitLsn) :
    Inv H cfg recs log' { l with node := node' } where
  retains := hr
  pending := fun c hc => (h.pending c hc).trans hcommit
  cursor := h.cursor.trans (max_le_max le_rfl hcommit)
  unread := h.unread
  reached := by
    intro hlt
    have hlt : cfg.receiver.startLsn < l.receiver.cursor := hlt
    obtain ⟨hseed, hfin⟩ := h.reached hlt
    refine ⟨?_, hfin.trans hg.fin_le⟩
    rcases hg.seed with heq | hblank
    · rw [heq]
      exact hseed
    · -- a log that reaches above its start is not blank
      rw [Lsn.lt_iff_toNat] at hlt
      rw [ByteLog.fin, hblank.1, hblank.2, List.length_nil] at hfin
      omega
  follows := h.follows
  refused := h.refused

theorem receive_empty (codecs : Codecs) (l : Link) (commitLsn start : Lsn) :
    l.receive codecs (.ok ⟨.ok, commitLsn, start, []⟩)
      = { l with pending := none, polls := l.polls ++ [.ok 0] } := by
  simp only [receive, WalReceiver.receive, List.isEmpty_nil, if_true, List.append_nil]

/-- A poll that changes nothing but its own result. -/
theorem Inv.idle (h : Inv H cfg recs log l) {pending : Option Lsn} (connected : Bool)
    {result : PollResult} (hpending : pending = none ∨ pending = l.pending)
    (hresult : ∀ e, result ≠ .error (.wal e)) :
    Inv H cfg recs log { l with
      pending := pending
      receiver := { l.receiver with connected := connected }
      polls := l.polls ++ [result] } where
  retains := h.retains
  pending := by
    intro c hc
    rcases hpending with rfl | rfl
    · simp at hc
    · exact h.pending c hc
  cursor := h.cursor
  unread := h.unread
  reached := h.reached
  follows := by
    obtain ⟨done, rest, hrecs, hhanded, hbetween, hok⟩ := h.follows
    exact ⟨done, rest, hrecs, hhanded, hbetween, fun ha => hok (accepting_concat.mp ha).1⟩
  refused := by
    intro e he
    rcases List.mem_append.mp he with he | he
    · exact h.refused e he
    · exact absurd (List.mem_singleton.mp he).symm (hresult e)

theorem Inv.start_le_cursor (h : Inv H cfg recs log l) :
    cfg.start ≤ l.receiver.cursor.raw.toNat := by
  obtain ⟨done, rest, _, _, hbetween, _⟩ := h.follows
  exact (H.paging.le_fin _ _).trans hbetween.fin_le

/-- A chunk that starts at the cursor goes to the decoder in place. -/
theorem Inv.decoderFor_eq (h : Inv H cfg recs log l) {resp : ReadResponse}
    (hstart : resp.startLsn = l.receiver.cursor) :
    l.receiver.decoderFor resp
      = l.receiver.decoder.getD (WalStreamDecoder.new cfg.receiver.startLsn) := by
  unfold WalReceiver.decoderFor
  cases hd : l.receiver.decoder with
  | none => rw [hstart, h.unread hd, Option.getD_none]
  | some d => exact if_neg (not_not.mpr hstart)

theorem Inv.receive_eq (h : Inv H cfg recs log l) {resp : ReadResponse} {out : Ingested}
    (hstart : resp.startLsn = l.receiver.cursor) (hne : resp.payload.isEmpty = false)
    (hout : ingestAll cfg.codecs
      ((l.receiver.decoder.getD (WalStreamDecoder.new cfg.receiver.startLsn)).feedBytes resp.payload)
      l.repo = out) :
    l.receive cfg.codecs (.ok resp) = { l with
      pending := none
      receiver := { l.receiver with
        decoder := some out.decoder
        cursor := ⟨l.receiver.cursor.raw + UInt64.ofNat resp.payload.length⟩ }
      repo := out.repo
      handed := l.handed ++ out.handed
      polls := l.polls ++ [out.result.mapError PollError.wal] } := by
  simp only [Link.receive, WalReceiver.receive, hne, Bool.false_eq_true, if_false,
    h.decoderFor_eq hstart, hout, hstart]

theorem mapError_eq_error {result : Except WalDecodeError Nat} {e : WalDecodeError}
    (h : result.mapError PollError.wal = .error (.wal e)) : result = .error e := by
  cases result with
  | error e' => rw [PollError.wal.inj (Except.error.inj h)]
  | ok n => simp [Except.mapError] at h

/-- The next piece of the stream is handed to the decoder and ingested. -/
theorem Inv.feed (h : Inv H cfg recs log l) {k : Nat} {payload : List UInt8} (hlen : payload.length = k)
    (hpayload : payload
      = ((H.wal cfg.start recs).drop (l.receiver.cursor.raw.toNat - cfg.start)).take k)
    (hmoved : (l.receiver.cursor.raw + UInt64.ofNat k).toNat = l.receiver.cursor.raw.toNat + k)
    {out : Ingested} (hout : ingestAll cfg.codecs
      ((l.receiver.decoder.getD (WalStreamDecoder.new cfg.receiver.startLsn)).feedBytes payload)
      l.repo = out) :
    Follows H cfg recs { l with
        pending := none
        receiver := { l.receiver with
          decoder := some out.decoder
          cursor := ⟨l.receiver.cursor.raw + UInt64.ofNat k⟩ }
        repo := out.repo
        handed := l.handed ++ out.handed
        polls := l.polls ++ [out.result.mapError PollError.wal] } ∧
      ∀ e, out.result = .error e → ∃ r ∈ recs, ∃ lsn, decodeWalRecord lsn r.bytes = .error e := by
  obtain ⟨done, rest, hrecs, hhanded, hbetween, hok⟩ := h.follows
  have hfed := hbetween.feed k
  simp only at hfed
  rw [← hrecs, ← hpayload, hlen, ← hmoved] at hfed
  have hspec := ingestAll_spec cfg.codecs l.repo hrecs hfed
  rw [hout] at hspec
  obtain ⟨⟨done', rest', new, hsplit, hbetween', hnew, hhanded', hok'⟩, herr⟩ := hspec
  rw [List.nil_append] at hhanded'
  refine ⟨⟨done', rest', hsplit, ?_, hbetween', ?_⟩, herr⟩
  · show l.handed ++ out.handed = _
    rw [hhanded, hhanded', hnew]
  · intro haccept
    obtain ⟨hpolls, hresult⟩ := accepting_concat.mp haccept
    cases hres : out.result with
    | error e => exact absurd (by rw [hres]; rfl) (hresult e)
    | ok n =>
      obtain ⟨hnone, hingest, _⟩ := hok' n hres
      refine ⟨hnone, ?_⟩
      show cfg.repo.ingestRecords cfg.codecs (l.handed ++ out.handed) = .ok out.repo
      rw [Repository.ingestRecords_append, (hok hpolls).2, hhanded']
      exact hingest

/-- **A chunk of the log from the cursor on is taken.** -/
theorem Inv.chunk (h : Inv H cfg recs log l)
    (hwal : log.Carries cfg.start (H.wal cfg.start recs))
    {commitLsn : Lsn} (hpending : commitLsn ∈ l.pending) {k : Nat} (hpos : 0 < k)
    (hseed : log.seed ≤ l.receiver.cursor.raw.toNat)
    (hcommit : l.receiver.cursor.raw.toNat + k ≤ commitLsn.raw.toNat)
    (hfin : l.receiver.cursor.raw.toNat + k ≤ log.fin) :
    Inv H cfg recs log (l.receive cfg.codecs
      (.ok ⟨.ok, commitLsn, l.receiver.cursor, log.slice l.receiver.cursor.raw.toNat k⟩)) := by
  have hstart := h.start_le_cursor
  have hlimit := commitLsn.raw.toNat_lt
  have hlen : (log.slice l.receiver.cursor.raw.toNat k).length = k := ByteLog.length_slice hseed hfin
  have hmoved : (l.receiver.cursor.raw + UInt64.ofNat k).toNat = l.receiver.cursor.raw.toNat + k :=
    WalStorage.toNat_add_ofNat (by omega)
  have hne : (log.slice l.receiver.cursor.raw.toNat k).isEmpty = false := by
    rw [List.isEmpty_eq_false_iff, ne_eq, ← List.length_eq_zero_iff]
    omega
  obtain ⟨hfollows, herr⟩ := h.feed hlen (hwal.slice_eq hstart hseed hfin) hmoved rfl
  rw [h.receive_eq rfl hne rfl, hlen]
  refine ⟨h.retains, ?_, ?_, ?_, ?_, hfollows, ?_⟩
  · intro c hc
    simp at hc
  · refine le_trans ?_ (le_max_right _ _)
    refine le_trans ?_ (h.pending commitLsn hpending)
    rw [Lsn.le_iff_toNat]
    exact hmoved.trans_le hcommit
  · intro hnone
    simp at hnone
  · intro _
    refine ⟨?_, hmoved.trans_le hfin⟩
    by_cases hlt : cfg.receiver.startLsn < l.receiver.cursor
    · exact (h.reached hlt).1
    · have hlt : ¬ cfg.start < l.receiver.cursor.raw.toNat := hlt
      omega
  · intro e he
    rcases List.mem_append.mp he with he | he
    · exact h.refused e he
    · exact herr e (mapError_eq_error (List.mem_singleton.mp he).symm)

/-- **An answered read keeps the receiver on the stream.** -/
theorem Inv.answer (h : Inv H cfg recs log l)
    (hwal : log.Carries cfg.start (H.wal cfg.start recs))
    {commitLsn : Lsn} (hpending : commitLsn ∈ l.pending)
    (hgap : l.node.storage.startLsn ≤ l.receiver.cursor ∨ commitLsn ≤ l.node.storage.startLsn) :
    Inv H cfg recs log (l.receive cfg.codecs (l.node.handleRead commitLsn l.receiver.request)) := by
  have hseed := h.retains.seed
  have hread := h.retains.handleRead_eq commitLsn l.receiver.request
  simp only at hread
  rw [hread]
  obtain ⟨start, hstart⟩ : ∃ s, max l.receiver.request.startLsn l.node.storage.startLsn = s :=
    ⟨_, rfl⟩
  obtain ⟨k, hk⟩ : ∃ k, min (commitLsn.raw.toNat - start.raw.toNat)
    l.receiver.request.maxBytes.toNat = k := ⟨_, rfl⟩
  rw [hstart, hk]
  by_cases hzero : k = 0
  · rw [if_pos (Or.inl hzero), hzero, ByteLog.slice, List.take_zero, receive_empty]
    exact h.idle l.receiver.connected (Or.inl rfl) (fun e => by simp)
  · have hcursor : start = l.receiver.cursor := by
      rcases hgap with hle | hle
      · rw [← hstart]
        exact max_eq_left hle
      · have hfloor : l.node.storage.startLsn ≤ start := hstart ▸ le_max_right _ _
        have hbelow := hle.trans hfloor
        rw [Lsn.le_iff_toNat] at hbelow
        omega
    have hfloor : l.node.storage.startLsn ≤ start := hstart ▸ le_max_right _ _
    rw [Lsn.le_iff_toNat] at hfloor
    rw [hcursor] at hk hfloor ⊢
    by_cases hin : l.receiver.cursor.raw.toNat + k ≤ log.fin
    · rw [if_pos (Or.inr hin)]
      exact h.chunk hwal hpending (by omega) (by omega) (by omega) hin
    · rw [if_neg (fun hc => hc.elim hzero hin)]
      exact h.idle false (Or.inl rfl) (fun e => by simp)

theorem Inv.step {pre : List LinkAction} (h : Inv H cfg recs (linkLog pre) l)
    (hwal : (linkLog pre).Carries cfg.start (H.wal cfg.start recs)) {a : LinkAction}
    (hfit : (linkLog (pre ++ [a])).fin < 2 ^ 64) (ha : l.NoGap a) :
    Inv H cfg recs (linkLog (pre ++ [a])) (l.step cfg.codecs a) := by
  have hsame : a.stored = none → linkLog (pre ++ [a]) = linkLog pre := by
    intro hnone
    rw [linkLog_concat, hnone, Option.toList_none, List.append_nil, linkLog]
  cases a with
  | store a =>
    refine h.grow (grows_linkLog_concat pre _) ?_ le_rfl
    rw [linkLog_concat] at hfit ⊢
    refine WalStorage.Retains.step h.retains hfit ?_
    rintro horizon rfl
    exact ha
  | recordFlush node lsn =>
    rw [hsame rfl]
    exact h.grow (ByteLog.Grows.refl _) h.retains
      (Consensus.commitLsn_le_recordFlush l.node.consensus node lsn)
  | request =>
    rw [hsame rfl]
    simp only [Link.step]
    split
    · refine ⟨h.retains, ?_, h.cursor, h.unread, h.reached, h.follows, h.refused⟩
      intro c hc
      cases hp : l.pending with
      | none =>
        simp only [hp, Option.getD_none, Option.mem_def, Option.some.injEq] at hc
        exact hc ▸ le_rfl
      | some c' =>
        simp only [hp, Option.getD_some, Option.mem_def, Option.some.injEq] at hc
        exact h.pending c (hc ▸ hp)
    · exact h.idle l.receiver.connected (Or.inr rfl) (fun e => by simp)
  | answer =>
    rw [hsame rfl]
    simp only [Link.step]
    split
    · next c hp =>
      refine h.answer hwal hp ?_
      rcases ha with hle | hall
      · exact Or.inl hle
      · exact Or.inr (hall c hp)
    · exact h

theorem inv_after (H : PageHeaders) (cfg : LinkConfig) (recs : List RecordImage)
    {acts : List LinkAction} (h : Along (fun pre a => (after cfg pre).NoGap a) acts)
    (hfit : (linkLog acts).fin < 2 ^ 64)
    (hwal : (linkLog acts).Carries cfg.start (H.wal cfg.start recs)) :
    Inv H cfg recs (linkLog acts) (after cfg acts) := by
  -- the log of a shorter run carries the same stream and ends earlier
  refine run_invariant (I := fun pre (l : Link) => (linkLog pre).fin < 2 ^ 64 →
    (linkLog pre).Carries cfg.start (H.wal cfg.start recs) →
    Inv H cfg recs (linkLog pre) l) (fun _ _ => inv_new H cfg recs) ?_ acts h hfit hwal
  intro pre a _ ha hinv hfin hcarries
  have hgrows := grows_linkLog_concat pre a
  have hpre := hcarries.of_grows hgrows
  exact (hinv (lt_of_le_of_lt hgrows.fin_le hfin) hpre).step hpre hfin ha

/-- What has been fed is a beginning of the stream. -/
theorem Inv.slice_eq (h : Inv H cfg recs log l)
    (hwal : log.Carries cfg.start (H.wal cfg.start recs)) :
    let fed := l.receiver.cursor.raw.toNat - cfg.start
    log.slice cfg.start fed = (H.wal cfg.start recs).take fed ∧
      (log.slice cfg.start fed).length = fed := by
  intro fed
  have hstart := h.start_le_cursor
  by_cases hlt : cfg.receiver.startLsn < l.receiver.cursor
  · obtain ⟨hseed, hfin⟩ := h.reached hlt
    have hslice := hwal.slice_eq (n := fed) le_rfl hseed (by omega)
    rw [Nat.sub_self, List.drop_zero] at hslice
    exact ⟨hslice, ByteLog.length_slice hseed (by omega)⟩
  · have hlt : ¬ cfg.start < l.receiver.cursor.raw.toNat := hlt
    obtain hzero : fed = 0 := by omega
    rw [hzero]
    exact ⟨rfl, rfl⟩

/-- One `ingest_wal` of what has been fed has the same effect as the polls. -/
theorem Inv.ingestWal_eq (h : Inv H cfg recs log l)
    (hwal : log.Carries cfg.start (H.wal cfg.start recs))
    (hdec : ∀ r ∈ recs, ∀ lsn, ∃ decoded, decodeWalRecord lsn r.bytes = .ok decoded)
    (haccept : Accepting l.polls) :
    cfg.repo.ingestWal cfg.codecs cfg.receiver.startLsn
        (log.slice cfg.start (l.receiver.cursor.raw.toNat - cfg.start))
      = (l.repo, .ok l.handed.length) := by
  obtain ⟨done, rest, hrecs, hhanded, hbetween, hok⟩ := h.follows
  obtain ⟨hnone, hrepo⟩ := hok haccept
  obtain ⟨hslice, hlen⟩ := h.slice_eq hwal
  have hstart := h.start_le_cursor
  -- a fresh decoder fed with all of it
  have hfed := (Between.initial H cfg.receiver.startLsn recs).feed
    (l.receiver.cursor.raw.toNat - cfg.start)
  simp only [Nat.sub_self, List.drop_zero, List.nil_append] at hfed
  rw [← hslice, hlen, Nat.add_sub_cancel' hstart] at hfed
  have hspec := ingestAll_spec cfg.codecs cfg.repo (List.nil_append recs).symm hfed
  unfold Repository.ingestWal
  obtain ⟨out, hout⟩ : ∃ out, ingestAll cfg.codecs
      ((WalStreamDecoder.new cfg.receiver.startLsn).feedBytes
        (log.slice cfg.start (l.receiver.cursor.raw.toNat - cfg.start))) cfg.repo = out := ⟨_, rfl⟩
  rw [hout] at hspec ⊢
  obtain ⟨⟨done', rest', new, hsplit, hbetween', hnew, _, hok'⟩, herr⟩ := hspec
  cases hres : out.result with
  | error e =>
    obtain ⟨r, hr, lsn, he⟩ := herr e hres
    obtain ⟨decoded, hd⟩ := hdec r hr lsn
    rw [hd] at he
    simp at he
  | ok n =>
    obtain ⟨hnone', hingest, hn⟩ := hok' n hres
    -- both have handed out every complete record
    have hsame : done' = done := by
      rw [← hbetween'.take_whole hnone', ← hsplit, hrecs, hbetween.take_whole hnone]
    have hnew' : new = l.handed := by
      rw [hhanded, ← hsame, hnew]
      rfl
    rw [hnew', hrepo] at hingest
    rw [hnew', Nat.zero_add] at hn
    simp only [← Except.ok.inj hingest, hres, hn]

end Link

/-! ## Exactly-once ingest -/

/-- **End-to-end ingest is exactly-once.** Let the log of the safekeeper carry the WAL of
`recs` from `start_lsn` on, each record accepted by the decoder. In every run in which the
retained floor does not pass the cursor, the records handed on are those that lie wholly
between `start_lsn` and the cursor, each once and in order; beyond `start_lsn` the cursor
does not pass the commit position; and the repository is the one that a single `ingest_wal`
of the log from `start_lsn` to the cursor makes. -/
theorem ingest_exactly_once (H : PageHeaders) (cfg : LinkConfig) (recs : List RecordImage)
    (acts : List LinkAction) (h : Along (fun pre a => (Link.after cfg pre).NoGap a) acts)
    (hfit : (linkLog acts).fin < 2 ^ 64)
    (hwal : (linkLog acts).Carries cfg.start (H.wal cfg.start recs))
    (hdec : ∀ r ∈ recs, ∀ lsn, ∃ decoded, decodeWalRecord lsn r.bytes = .ok decoded) :
    let l := Link.after cfg acts
    let cursor := l.receiver.cursor.raw.toNat
    l.handed = H.records cfg.start (recs.take (H.whole cfg.start recs cursor)) ∧
      l.receiver.cursor ≤ max cfg.receiver.startLsn l.node.commitLsn ∧
      cfg.repo.ingestWal cfg.codecs cfg.receiver.startLsn
          ((linkLog acts).slice cfg.start (cursor - cfg.start))
        = (l.repo, .ok l.handed.length) := by
  intro l cursor
  have hinv : l.Inv H cfg recs (linkLog acts) := Link.inv_after H cfg recs h hfit hwal
  have haccept : Link.Accepting l.polls := by
    intro e he
    obtain ⟨r, hr, lsn, herr⟩ := hinv.refused e he
    obtain ⟨decoded, hd⟩ := hdec r hr lsn
    rw [hd] at herr
    simp at herr
  obtain ⟨done, rest, hrecs, hhanded, hbetween, hok⟩ := hinv.follows
  refine ⟨?_, hinv.cursor, hinv.ingestWal_eq hwal hdec haccept⟩
  have hwhole := hbetween.take_whole (hok haccept).1
  rw [← hrecs] at hwhole
  rw [hwhole, hhanded]

/-- Page headers with nothing in them but the magic. -/
def plainHeaders : PageHeaders where
  header pos := 0x13 :: 0xD1 ::
    List.replicate (if pos % DEFAULT_WAL_SEG_SIZE.toNat = 0 then 38 else 22) 0
  size := by
    intro pos
    split <;> rfl
  magic := fun _ => rfl

/-- The shortest record: no block and no main data. -/
def emptyRecord : RecordImage where
  bytes := 26 :: List.replicate 23 0 ++ [255, 0]
  hasHeader := by decide
  totLen := by decide

/-- A group of one node with segments of 8 bytes, and a receiver that starts behind the
first page header. -/
def soleNode (maxChunk : UInt32) : LinkConfig where
  group := ⟨[1], fun _ => [], fun _ => WalConfig.small 256, by decide⟩
  node := 1
  receiver := ⟨TenantId.ZERO, TimelineId.ZERO, 40, maxChunk⟩
  codecs := ⟨fun _ _ => none, fun _ _ => none⟩
  repo := Repository.new 4

/-- A record arrives in two chunks, and the segments below the cursor are recycled in
between. -/
def twoChunks : List LinkAction :=
  [.store (.append 40 emptyRecord.bytes), .store .flush, .recordFlush 1 66, .request, .answer,
    .store (.removeSegmentsBefore 56), .request, .answer]

theorem carries_emptyRecord :
    ByteLog.Carries ⟨40, emptyRecord.bytes⟩ 40 (plainHeaders.wal 40 [emptyRecord]) :=
  ByteLog.carries_of_isPrefix 40 (show emptyRecord.bytes <+: _ by decide +kernel)

theorem decodes_emptyRecord :
    ∀ r ∈ [emptyRecord], ∀ lsn, ∃ decoded, decodeWalRecord lsn r.bytes = .ok decoded := by
  intro r hr lsn
  rw [List.mem_singleton.mp hr]
  exact ⟨_, rfl⟩

/-- The record is handed on once it is complete. -/
theorem ingest_exactly_once_sample :
    let l := Link.after (soleNode 16) twoChunks
    l.receiver.cursor = 66 ∧ plainHeaders.whole 40 [emptyRecord] 66 = 1 ∧
      l.handed = plainHeaders.records 40
        ([emptyRecord].take (plainHeaders.whole 40 [emptyRecord] l.receiver.cursor.raw.toNat)) :=
  ⟨by decide +kernel, by decide +kernel,
    (ingest_exactly_once plainHeaders (soleNode 16) [emptyRecord] twoChunks (by decide +kernel)
      (by decide) carries_emptyRecord decodes_emptyRecord).1⟩

/-- A receiver that polls before anything is committed. -/
def earlyPoll : List LinkAction :=
  [.store (.append 40 emptyRecord.bytes), .store .flush, .request, .answer]

/-- The cursor starts above the commit position then, and stays there. -/
theorem cursor_above_commit :
    let l := Link.after (soleNode 16) earlyPoll
    Along (fun pre a => (Link.after (soleNode 16) pre).NoGap a) earlyPoll ∧
      (linkLog earlyPoll).Carries 40 (plainHeaders.wal 40 [emptyRecord]) ∧
      l.polls = [.ok 0] ∧ l.receiver.cursor = 40 ∧ l.node.commitLsn < l.receiver.cursor :=
  ⟨by decide +kernel, carries_emptyRecord, by decide +kernel, by decide +kernel,
    by decide +kernel⟩

/-! ## Recycling -/

/-- **No silent gap and no invented records**, as long as the retained floor does not pass
the cursor: what is handed on are records of the log between `start_lsn` and the cursor, and
unless a poll has failed, all of them are ingested. -/
theorem no_silent_gap (H : PageHeaders) (cfg : LinkConfig) (recs : List RecordImage)
    (acts : List LinkAction) (h : Along (fun pre a => (Link.after cfg pre).NoGap a) acts)
    (hfit : (linkLog acts).fin < 2 ^ 64)
    (hwal : (linkLog acts).Carries cfg.start (H.wal cfg.start recs)) :
    let l := Link.after cfg acts
    let cursor := l.receiver.cursor.raw.toNat
    let records := H.records cfg.start (recs.take (H.whole cfg.start recs cursor))
    (cfg.start < cursor → cursor ≤ (linkLog acts).fin) ∧
      (∀ e ∈ l.handed, e ∈ records) ∧
      ((∃ e, .error e ∈ l.polls) ∨
        (∀ e ∈ records, e ∈ l.handed) ∧
          cfg.repo.ingestRecords cfg.codecs l.handed = .ok l.repo) := by
  intro l cursor records
  have hinv : l.Inv H cfg recs (linkLog acts) := Link.inv_after H cfg recs h hfit hwal
  obtain ⟨done, rest, hrecs, hhanded, hbetween, hok⟩ := hinv.follows
  refine ⟨fun hlt => (hinv.reached hlt).2, ?_, ?_⟩
  · intro e he
    have hsub := hbetween.records_subset
    rw [← hrecs] at hsub
    exact hsub (hhanded ▸ he)
  · by_cases hfail : ∃ e, .error e ∈ l.polls
    · exact Or.inl hfail
    · obtain ⟨hnone, hrepo⟩ := hok fun e he => hfail ⟨_, he⟩
      refine Or.inr ⟨?_, hrepo⟩
      have hwhole := hbetween.take_whole hnone
      rw [← hrecs] at hwhole
      intro e he
      rw [hhanded, ← hwhole]
      exact he

/-- Recycling below the cursor does no harm. -/
theorem no_silent_gap_sample :
    let l := Link.after (soleNode 16) twoChunks
    l.node.storage.startLsn = 56 ∧
      ((∃ e, .error e ∈ l.polls) ∨
        (∀ e ∈ plainHeaders.records 40
            ([emptyRecord].take (plainHeaders.whole 40 [emptyRecord] l.receiver.cursor.raw.toNat)),
          e ∈ l.handed) ∧
          (soleNode 16).repo.ingestRecords (soleNode 16).codecs l.handed = .ok l.repo) :=
  ⟨by decide +kernel,
    (no_silent_gap plainHeaders (soleNode 16) [emptyRecord] twoChunks (by decide +kernel)
      (by decide) carries_emptyRecord).2.2⟩

/-- A record whose main data has the bytes of another record in it. -/
def nestedRecord : RecordImage where
  bytes := 80 :: List.replicate 23 0 ++ [255, 54] ++ List.replicate 6 0 ++ emptyRecord.bytes
    ++ List.replicate 22 0
  hasHeader := by decide
  totLen := by decide

/-- The record is committed, and recycled up to the nested bytes before the first poll. -/
def recycledBeforePoll : List LinkAction :=
  [.store (.append 40 nestedRecord.bytes), .store .flush, .recordFlush 1 120,
    .store (.removeSegmentsBefore 72), .request, .answer]

/-- The floor is inside the only record. The poll succeeds, hands on a record that is not in
the log and loses the one that is. -/
theorem invented_record_after_recycling :
    let l := Link.after (soleNode 128) recycledBeforePoll
    (linkLog recycledBeforePoll).Carries 40 (plainHeaders.wal 40 [nestedRecord]) ∧
      l.node.commitLsn = 120 ∧ l.receiver.cursor = 120 ∧ l.polls = [.ok 1] ∧
      l.handed = [(72, emptyRecord.bytes)] ∧
      plainHeaders.records 40
          ([nestedRecord].take (plainHeaders.whole 40 [nestedRecord] l.receiver.cursor.raw.toNat))
        = [(40, nestedRecord.bytes)] :=
  ⟨ByteLog.carries_of_isPrefix 40 (show nestedRecord.bytes <+: _ by decide +kernel),
    by decide +kernel, by decide +kernel, by decide +kernel, by decide +kernel, by decide +kernel⟩

end AethelDB.Pageserver
