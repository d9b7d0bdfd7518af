import AethelDB.Pageserver.Walredo

/-!
# WAL redo through a child process

`PostgresRedoManager` in `pageserver/src/walredo_process.rs`. Images and deltas
are applied natively; raw WAL records go to a child process. Records are not sent
one by one: they are collected in `pending` and sent as one batch when a native
version interrupts them or the history ends. Whether the child gets the current
page as its base or starts from zeros depends on the flag `haveBase`.

The child is a `RedoChild`: what `redo_page` returns for a base and a batch. Its
page has the page size, because `exchange` reads it into a buffer of that size.
The one thing asked of it is that a batch is its records in order (`Batches`).

The specification is the generic `replay` once more, with records sent one at a
time (`redoStart`, `redoStep`). The loop state stands for the page it would have
after a flush (`RedoState.settled`), and one version moves that page by one
`redoStep` (`settled_step`), whether the version is sent now or only queued.
-/

namespace AethelDB.Pageserver

open AethelDB.Lib

/-- The raw records of one request, each with its LSN. -/
abbrev RedoRecords := List (Lsn × List UInt8)

/-- A wal-redo child: the answer of `redo_page` to a base and a batch of records. -/
structure RedoChild where
  redoPage : RelTag → UInt32 → Option (List UInt8) → RedoRecords → Except RedoError (List UInt8)
  length_eq : ∀ {rel blkno base records page},
    redoPage rel blkno base records = .ok page → page.length = PAGE_SIZE

/-- A batch is its records in order: applying more records to what some records made,
and failing where some records fail. -/
def RedoChild.Batches (child : RedoChild) : Prop :=
  ∀ rel blkno base r₁ r₂, r₁ ≠ [] → r₂ ≠ [] →
    child.redoPage rel blkno base (r₁ ++ r₂)
      = child.redoPage rel blkno base r₁ >>= fun page => child.redoPage rel blkno (some page) r₂

/-- The locals of the reconstruction loop. -/
structure RedoState where
  page : List UInt8
  haveBase : Bool
  pending : RedoRecords

variable (child : RedoChild) (key : PageKey)

namespace RedoState

/-- `flush`: send what is pending, on top of the page if it is a real one. -/
def flush (s : RedoState) : Except RedoError RedoState :=
  if s.pending.isEmpty then .ok s
  else do
    let base := if s.haveBase then some s.page else none
    let result ← child.redoPage key.rel key.block base s.pending
    return ⟨result, true, []⟩

/-- A native version interrupts the records: flush what is pending, then apply it. -/
def applyNative (s : RedoState) (v : PageVersion) : Except RedoError RedoState := do
  let s ← s.flush child key
  let page ← (v.applyTo s.page).mapError .apply
  return { s with page := page, haveBase := true }

def step (s : RedoState) (e : Lsn × PageVersion) : Except RedoError RedoState :=
  match e.2 with
  | .walRecord w => .ok { s with pending := s.pending ++ [(e.1, w.record)] }
  | v => s.applyNative child key v

/-- The state the loop starts from: an image is applied to zeros, a `will_init`
record is the first one pending and has no base. -/
def start (e : Lsn × PageVersion) : Except RedoError RedoState :=
  match e.2 with
  | .image img => do
    let page ← ((PageVersion.image img).applyTo (List.replicate PAGE_SIZE 0)).mapError .apply
    return ⟨page, true, []⟩
  | .walRecord w => .ok ⟨List.replicate PAGE_SIZE 0, false, [(e.1, w.record)]⟩
  -- `unreachable!`: a delta is never a base
  | .delta _ => .error (.process "delta cannot be a reconstruction base")

end RedoState

/-- `PostgresRedoManager::reconstruct`. -/
def postgresRedo : WalRedoManager where
  reconstruct key _requestLsn versions :=
    match rposition (fun e => e.2.isBase) versions with
    | none => .ok none
    | some base =>
      match versions[base]? with
      | some e => do
        let s ← RedoState.start e
        let s ← (versions.drop (base + 1)).foldlM (RedoState.step child key) s
        let s ← s.flush child key
        return some s.page
      -- `base` is in range
      | none => .ok none

/-! ## One version at a time -/

/-- The latest base on its own. -/
def redoStart (e : Lsn × PageVersion) : Except RedoError (List UInt8) :=
  match e.2 with
  | .walRecord w => child.redoPage key.rel key.block none [(e.1, w.record)]
  | v => (v.applyTo (List.replicate PAGE_SIZE 0)).mapError .apply

/-- One later version: records through the child, the others natively. -/
def redoStep (page : List UInt8) (e : Lsn × PageVersion) : Except RedoError (List UInt8) :=
  match e.2 with
  | .walRecord w => child.redoPage key.rel key.block (some page) [(e.1, w.record)]
  | v => (v.applyTo page).mapError .apply

/-- Step-by-step redo. -/
def redoReplay (versions : Versions) : Except RedoError (Option (List UInt8)) :=
  replay PageVersion.isBase (redoStart child key) (redoStep child key) versions

/-! ## The loop against it -/

namespace RedoState

variable {e : Lsn × PageVersion}

/-- The page the state stands for. -/
def settled (s : RedoState) : Except RedoError (List UInt8) :=
  RedoState.page <$> s.flush child key

/-- The loop always has something to build on: a real page or a record. -/
def Based (s : RedoState) : Prop := s.haveBase = true ∨ s.pending ≠ []

variable {child key} {s : RedoState}

theorem settled_of_empty (h : s.pending = []) : s.settled child key = .ok s.page := by
  simp [settled, flush, h, Functor.map, Except.map]

theorem settled_of_pending (h : s.pending ≠ []) :
    s.settled child key
      = child.redoPage key.rel key.block (if s.haveBase then some s.page else none) s.pending := by
  have hne : s.pending.isEmpty = false := by simpa using h
  simp only [settled, flush, hne]
  cases child.redoPage key.rel key.block (if s.haveBase then some s.page else none) s.pending <;> rfl

/-- Queueing a record is applying it to the page the state stands for. -/
theorem settled_queue (hchild : child.Batches) (hs : s.Based) (record : Lsn × List UInt8) :
    ({ s with pending := s.pending ++ [record] } : RedoState).settled child key
      = s.settled child key >>= fun page =>
          child.redoPage key.rel key.block (some page) [record] := by
  rw [settled_of_pending (s := { s with pending := s.pending ++ [record] }) (by simp)]
  by_cases hempty : s.pending = []
  · have hbase : s.haveBase = true := hs.resolve_right fun h => h hempty
    rw [settled_of_empty hempty]
    simp [hempty, hbase, Bind.bind, Except.bind]
  · rw [settled_of_pending hempty]
    exact hchild _ _ _ _ _ hempty (by simp)

theorem pending_of_flush {t : RedoState} (h : s.flush child key = .ok t) : t.pending = [] := by
  unfold flush at h
  split at h
  · next hempty =>
    injection h with h
    rw [← h]
    exact List.isEmpty_iff.mp hempty
  · cases hr : child.redoPage key.rel key.block (if s.haveBase then some s.page else none)
      s.pending with
    | error e => simp [hr, Bind.bind, Except.bind] at h
    | ok page =>
      simp only [hr, Bind.bind, Except.bind, pure, Except.pure, Except.ok.injEq] at h
      rw [← h]

theorem settled_applyNative (v : PageVersion) :
    (s.applyNative child key v >>= fun s' => s'.settled child key)
      = s.settled child key >>= fun page => (v.applyTo page).mapError .apply := by
  cases hflush : s.flush child key with
  | error e => simp [applyNative, settled, hflush, Bind.bind, Except.bind, Functor.map, Except.map]
  | ok t =>
    have hsettled : s.settled child key = .ok t.page := by
      rw [settled, hflush]
      rfl
    rw [hsettled]
    cases happly : (v.applyTo t.page).mapError RedoError.apply with
    | error e => simp [applyNative, hflush, happly, Bind.bind, Except.bind]
    | ok page =>
      have hnext : ({ t with page := page, haveBase := true } : RedoState).settled child key
          = .ok page := settled_of_empty (show t.pending = [] from pending_of_flush hflush)
      simp only [applyNative, hflush, happly, Bind.bind, Except.bind, pure, Except.pure, hnext]

/-- **One version.** The page the state stands for moves by one step, and a failure
is a failure of what the state stood for or of the version itself. -/
theorem settled_step (hchild : child.Batches) (key : PageKey) (hs : s.Based)
    (e : Lsn × PageVersion) :
    (s.step child key e >>= fun s' => s'.settled child key)
      = s.settled child key >>= fun page => redoStep child key page e := by
  obtain ⟨lsn, v⟩ := e
  cases v with
  | walRecord w => exact settled_queue hchild hs (lsn, w.record)
  | image img => exact settled_applyNative _
  | delta edits => exact settled_applyNative _

theorem Based.step {t : RedoState} (h : s.step child key e = .ok t) : t.Based := by
  obtain ⟨lsn, v⟩ := e
  have hnative : ∀ v, s.applyNative child key v = .ok t → t.Based := by
    intro v h
    unfold applyNative at h
    cases hflush : s.flush child key with
    | error e => simp [hflush, Bind.bind, Except.bind] at h
    | ok u =>
      cases happly : (v.applyTo u.page).mapError RedoError.apply with
      | error e => simp [hflush, happly, Bind.bind, Except.bind] at h
      | ok page =>
        simp only [hflush, happly, Bind.bind, Except.bind, pure, Except.pure,
          Except.ok.injEq] at h
        exact Or.inl (by rw [← h])
  cases v with
  | walRecord w =>
    injection h with h
    rw [← h]
    exact Or.inr (by simp)
  | image img => exact hnative _ h
  | delta edits => exact hnative _ h

/-- **The loop.** -/
theorem settled_foldlM (hchild : child.Batches) (key : PageKey) :
    ∀ (versions : Versions) {s : RedoState}, s.Based →
      (versions.foldlM (RedoState.step child key) s >>= fun s' => s'.settled child key)
        = s.settled child key >>= fun page => versions.foldlM (redoStep child key) page := by
  intro versions
  induction versions with
  | nil =>
    intro s _
    show s.settled child key = s.settled child key >>= pure
    rw [bind_pure]
  | cons e versions ih =>
    intro s hs
    have hone := settled_step hchild key hs e
    simp only [List.foldlM_cons]
    rw [← bind_assoc, ← hone]
    cases hstep : s.step child key e with
    | error err => rfl
    | ok t => exact ih (Based.step hstep)

theorem Based.start {t : RedoState} (h : RedoState.start e = .ok t) : t.Based := by
  obtain ⟨lsn, v⟩ := e
  cases v with
  | image img =>
    cases happly : ((PageVersion.image img).applyTo (List.replicate PAGE_SIZE 0)).mapError
        RedoError.apply with
    | error err => simp [RedoState.start, happly, Bind.bind, Except.bind] at h
    | ok page =>
      simp only [RedoState.start, happly, Bind.bind, Except.bind, pure, Except.pure,
        Except.ok.injEq] at h
      exact Or.inl (by rw [← h])
  | walRecord w =>
    injection h with h
    exact Or.inr (by rw [← h]; simp)
  | delta edits => simp [RedoState.start] at h

theorem settled_start (hbase : e.2.isBase = true) :
    (RedoState.start e >>= fun s => s.settled child key) = redoStart child key e := by
  obtain ⟨lsn, v⟩ := e
  cases v with
  | image img =>
    cases happly : ((PageVersion.image img).applyTo (List.replicate PAGE_SIZE 0)).mapError
        RedoError.apply with
    | error err => simp [RedoState.start, redoStart, happly, Bind.bind, Except.bind]
    | ok page =>
      have hsettled : (⟨page, true, []⟩ : RedoState).settled child key = .ok page :=
        settled_of_empty rfl
      simp only [RedoState.start, redoStart, happly, Bind.bind, Except.bind, pure, Except.pure,
        hsettled]
  | walRecord w => exact settled_of_pending (List.cons_ne_nil _ _)
  | delta edits => simp [PageVersion.isBase] at hbase

end RedoState

variable {child key}

/-- **Batched redo is step-by-step redo.** -/
theorem postgresRedo_eq_replay (hchild : child.Batches) (key : PageKey) (lsn : Lsn)
    (versions : Versions) :
    (postgresRedo child).reconstruct key lsn versions = redoReplay child key versions := by
  have hspec := latest_of_rposition versions
  simp only [postgresRedo, redoReplay, replay]
  cases hr : rposition (fun e : Lsn × PageVersion => e.2.isBase) versions with
  | none =>
    rw [hr] at hspec
    have hl : latest PageVersion.isBase versions = none := hspec
    rw [hl]
  | some i =>
    rw [hr] at hspec
    obtain ⟨b, hb, hbase, hl⟩ := hspec
    simp only [hl, hb]
    rw [← RedoState.settled_start hbase, bind_assoc]
    cases hstart : RedoState.start b with
    | error err => rfl
    | ok s =>
      have hloop := RedoState.settled_foldlM hchild key (versions.drop (i + 1))
        (RedoState.Based.start hstart)
      show (do
        let s ← (versions.drop (i + 1)).foldlM (RedoState.step child key) s
        let s ← s.flush child key
        return some s.page) = s.settled child key >>= fun page =>
          (versions.drop (i + 1)).foldlM (redoStep child key) page >>= fun page => pure (some page)
      have hresult := congrArg (· >>= fun page => pure (some page)) hloop
      simpa only [RedoState.settled, map_eq_pure_bind, bind_assoc, pure_bind] using hresult

theorem redoStep_length {page q : List UInt8} {e : Lsn × PageVersion}
    (hp : page.length = PAGE_SIZE) (h : redoStep child key page e = .ok q) :
    q.length = PAGE_SIZE := by
  obtain ⟨lsn, v⟩ := e
  cases v with
  | walRecord w => exact child.length_eq h
  | image img => exact nativeStep_length (e := (lsn, .image img)) hp h
  | delta edits => exact nativeStep_length (e := (lsn, .delta edits)) hp h

/-- Apart from WAL records, a step is the native backend's. -/
theorem redoStep_eq_nativeStep {e : Lsn × PageVersion} (h : ∀ w, e.2 ≠ .walRecord w)
    (page : List UInt8) : redoStep child key page e = nativeStep page e := by
  obtain ⟨lsn, v⟩ := e
  cases v with
  | walRecord w => exact absurd rfl (h w)
  | image img => rfl
  | delta edits => rfl

theorem foldlM_redoStep_eq :
    ∀ {versions : Versions}, (∀ e ∈ versions, ∀ w, e.2 ≠ .walRecord w) → ∀ page,
      versions.foldlM (redoStep child key) page = versions.foldlM nativeStep page := by
  intro versions
  induction versions with
  | nil => exact fun _ _ => rfl
  | cons e versions ih =>
    intro h page
    rw [List.foldlM_cons, List.foldlM_cons, redoStep_eq_nativeStep (h e List.mem_cons_self)]
    congr 1
    funext q
    exact ih (fun e' he' => h e' (List.mem_cons_of_mem _ he')) q

theorem redoReplay_eq_nativeReplay {versions : Versions}
    (h : ∀ b rest, latest PageVersion.isBase versions = some (b, rest) →
      ∀ e ∈ b :: rest, ∀ w, e.2 ≠ .walRecord w) :
    redoReplay child key versions = nativeReplay versions := by
  unfold redoReplay nativeReplay replay
  cases hl : latest PageVersion.isBase versions with
  | none => rfl
  | some found =>
    obtain ⟨b, rest⟩ := found
    have hb := h b rest hl b List.mem_cons_self
    have hstart : redoStart child key b = nativeStep (List.replicate PAGE_SIZE 0) b := by
      obtain ⟨lsn, v⟩ := b
      cases v with
      | walRecord w => exact absurd rfl (hb w)
      | image img => rfl
      | delta edits => rfl
    simp only [hstart, foldlM_redoStep_eq fun e he => h b rest hl e (List.mem_cons_of_mem _ he)]

/-- **Batched redo equals step-by-step redo.** For every history, the backend
returns what applying the latest base and then each later version one at a time
returns, page or first error; nothing without a base; and what the native backend
returns when no WAL record occurs from the latest base on. -/
theorem postgresRedo_stepwise (child : RedoChild) (hchild : child.Batches) (key : PageKey)
    (lsn : Lsn) (versions : Versions) :
    (postgresRedo child).reconstruct key lsn versions = redoReplay child key versions ∧
      (¬ HasBase PageVersion.isBase versions →
        (postgresRedo child).reconstruct key lsn versions = .ok none) ∧
      ((∀ b rest, latest PageVersion.isBase versions = some (b, rest) →
          ∀ e ∈ b :: rest, ∀ w, e.2 ≠ .walRecord w) →
        (postgresRedo child).reconstruct key lsn versions
          = rustApply.reconstruct key lsn versions) := by
  have hreplay := postgresRedo_eq_replay hchild key lsn versions
  refine ⟨hreplay, fun hno => ?_, fun hnative => ?_⟩
  · rw [hreplay]
    exact replay_of_noBase hno
  · rw [hreplay, rustApply_eq_replay]
    exact redoReplay_eq_nativeReplay hnative

/-- A child that writes the last byte of each record over the page. -/
def fillChild : RedoChild where
  redoPage _ _ base records :=
    .ok (List.replicate PAGE_SIZE
      (records.foldl (fun byte r => r.2.getLast?.getD byte) (base.bind List.head? |>.getD 0)))
  length_eq h := by
    injection h with h
    rw [← h]
    exact List.length_replicate

theorem fillChild_batches : fillChild.Batches := by
  intro rel blkno base r₁ r₂ _ _
  show Except.ok _ = Except.ok _
  rw [List.foldl_append]
  rfl

/-- The hypothesis is met, here by a history of two records over a `will_init` one. -/
theorem postgresRedo_stepwise_sample :
    (postgresRedo fillChild).reconstruct ⟨⟨1, 2, 3, .main⟩, 0⟩ 30
        [(10, .walRecord ⟨true, [1]⟩), (20, .walRecord ⟨false, [2]⟩), (30, .delta [⟨0, [7]⟩])]
      = redoReplay fillChild ⟨⟨1, 2, 3, .main⟩, 0⟩
        [(10, .walRecord ⟨true, [1]⟩), (20, .walRecord ⟨false, [2]⟩), (30, .delta [⟨0, [7]⟩])] :=
  (postgresRedo_stepwise fillChild fillChild_batches _ 30 _).1

theorem redoReplay_length {versions : Versions} {p : List UInt8}
    (h : redoReplay child key versions = .ok (some p)) : p.length = PAGE_SIZE := by
  refine replay_invariant (I := fun p => p.length = PAGE_SIZE) (fun b p hb => ?_)
    (fun _ _ _ => redoStep_length) h
  obtain ⟨lsn, v⟩ := b
  cases v with
  | walRecord w => exact child.length_eq hb
  | image img => exact nativeStep_length (e := (lsn, .image img)) List.length_replicate hb
  | delta edits => exact nativeStep_length (e := (lsn, .delta edits)) List.length_replicate hb

/-- The process backend keeps the contract of the trait, so what is proved of every
lawful backend holds with it. -/
theorem postgresRedo_lawful (hchild : child.Batches) : (postgresRedo child).Lawful where
  noBase key lsn vs h := by
    rw [postgresRedo_eq_replay hchild]
    exact replay_of_noBase h
  found key lsn vs h := by
    rw [postgresRedo_eq_replay hchild]
    exact replay_ne_none_of_base h
  fromLatest key lsn lsn' vs vs' h := by
    rw [postgresRedo_eq_replay hchild, postgresRedo_eq_replay hchild, redoReplay, redoReplay, replay,
      replay, h]
  image key lsn l p hp := by
    rw [postgresRedo_eq_replay hchild, redoReplay_eq_nativeReplay, ← rustApply_eq_replay key lsn]
    · exact rustApply_lawful.image key lsn l p hp
    · intro b rest hl e he w hw
      simp only [latest, PageVersion.isBase, if_true, Option.some.injEq, Prod.mk.injEq] at hl
      obtain ⟨rfl, rfl⟩ := hl
      rw [List.mem_singleton.mp he] at hw
      simp at hw
  size key lsn vs p h := by
    rw [postgresRedo_eq_replay hchild] at h
    exact redoReplay_length h

theorem postgresRedo_lawful_sample : (postgresRedo fillChild).Lawful :=
  postgresRedo_lawful fillChild_batches

end AethelDB.Pageserver
