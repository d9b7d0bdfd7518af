import AethelDB.Pageserver.Page

/-!
# WAL redo: from a version history to a page

`pageserver/src/walredo.rs`. A redo backend is handed every version of a page up
to the requested LSN, in LSN order, and materializes the page. `WalRedoManager`
is the trait as a record; `rustApply` is `RustApplyRedoManager`, which installs
images and byte edits itself and refuses raw WAL records.

The source looks up the latest base by index (`rposition`) and replays the
slice after it. `rustApply_eq_replay` says that this is the generic `replay` of
`Lib.History`, with one step (`nativeStep`) doing both jobs: the base is a step
on the zero page.

Most results downstream do not depend on which backend is in use, only on the
contract the trait states: no base means no page, versions before the latest
base are irrelevant, and the requested LSN is not consulted beyond the choice of
versions. `Lawful` spells it out and `rustApply_lawful` discharges it.
-/

namespace AethelDB.Pageserver

open AethelDB.Lib

/-- Errors from reconstructing a page out of its version history. -/
inductive RedoError where
  | apply (e : PageError)
  | needsPostgres (lsn : Lsn)
  | process (msg : String)
  | redoFailed (msg : String)

def RedoError.display : RedoError → String
  | .apply e => "applying page version: " ++ e.display
  | .needsPostgres lsn =>
    "WAL record at " ++ lsn.display ++ " requires a Postgres wal-redo backend"
  | .process msg => "wal-redo process error: " ++ msg
  | .redoFailed msg => "wal-redo failed: " ++ msg

/-- A version history: every version of one page with its LSN. -/
abbrev Versions := List (Lsn × PageVersion)

/-- A backend that reconstructs a page as of an LSN from its sorted history. -/
structure WalRedoManager where
  reconstruct : PageKey → Lsn → Versions → Except RedoError (Option (List UInt8))

/-- Index of the last element that satisfies `p`. -/
def rposition {α : Type} (p : α → Bool) : List α → Option Nat
  | [] => none
  | x :: xs =>
    match rposition p xs with
    | some i => some (i + 1)
    | none => if p x then some 0 else none

/-- One replay step of the native backend: WAL records are refused, images and
deltas are applied in place. -/
def nativeStep (page : List UInt8) (e : Lsn × PageVersion) : Except RedoError (List UInt8) :=
  match e.2 with
  | .walRecord _ => .error (.needsPostgres e.1)
  | v => (v.applyTo page).mapError .apply

/-- `RustApplyRedoManager::reconstruct`. -/
def rustApply : WalRedoManager where
  reconstruct _key _requestLsn versions :=
    match rposition (fun e => e.2.isBase) versions with
    | none => .ok none
    | some base =>
      match versions[base]? with
      | some (_, .image img) => do
        let page ← ((PageVersion.image img).applyTo (List.replicate PAGE_SIZE 0)).mapError .apply
        let page ← (versions.drop (base + 1)).foldlM nativeStep page
        return some page
      | some (lsn, .walRecord _) => .error (.needsPostgres lsn)
      -- `unreachable!`: a delta is never a base, and `base` is in range
      | _ => .error (.process "delta cannot be a reconstruction base")

/-- The native replay in the terms of `Lib.History`. -/
def nativeReplay (versions : Versions) : Except RedoError (Option (List UInt8)) :=
  replay PageVersion.isBase (nativeStep (List.replicate PAGE_SIZE 0)) nativeStep versions

theorem nativeReplay_append {ys : Versions} (h : ¬ HasBase PageVersion.isBase ys)
    (xs : Versions) :
    nativeReplay (xs ++ ys) =
      match nativeReplay xs with
      | .error e => .error e
      | .ok none => .ok none
      | .ok (some p) => (ys.foldlM nativeStep p).map some := by
  unfold nativeReplay
  rw [replay_append h]
  cases replay PageVersion.isBase (nativeStep (List.replicate PAGE_SIZE 0)) nativeStep xs with
  | error e => rfl
  | ok o => cases o <;> rfl

/-- `rposition` finds the index at which `latest` splits. -/
theorem latest_of_rposition :
    ∀ (vs : Versions),
      match rposition (fun e => e.2.isBase) vs with
      | none => latest PageVersion.isBase vs = none
      | some i => ∃ b, vs[i]? = some b ∧ b.2.isBase = true ∧
          latest PageVersion.isBase vs = some (b, vs.drop (i + 1)) := by
  intro vs
  induction vs with
  | nil => rfl
  | cons x xs ih =>
    simp only [rposition, latest]
    cases hr : rposition (fun e => e.2.isBase) xs with
    | some i =>
      rw [hr] at ih
      obtain ⟨b, hb, hbase, hl⟩ := ih
      exact ⟨b, by simpa using hb, hbase, by rw [hl]; rfl⟩
    | none =>
      rw [hr] at ih
      have hl : latest PageVersion.isBase xs = none := ih
      rw [hl]
      by_cases hx : x.2.isBase = true
      · simp only [hx, if_true]
        exact ⟨x, rfl, hx, rfl⟩
      · simp only [hx]
        rfl

/-- **The native backend replays the history.** -/
theorem rustApply_eq_replay (key : PageKey) (lsn : Lsn) (vs : Versions) :
    rustApply.reconstruct key lsn vs = nativeReplay vs := by
  have hspec := latest_of_rposition vs
  simp only [rustApply, nativeReplay, replay]
  cases hr : rposition (fun e : Lsn × PageVersion => e.2.isBase) vs with
  | none =>
    rw [hr] at hspec
    have hl : latest PageVersion.isBase vs = none := hspec
    rw [hl]
  | some i =>
    rw [hr] at hspec
    obtain ⟨⟨l, v⟩, hb, hbase, hl⟩ := hspec
    simp only [hl, hb]
    cases v with
    | image img => rfl
    | walRecord w => rfl
    | delta edits => simp [PageVersion.isBase] at hbase

/-! ## The backend contract -/

variable {page q p : List UInt8}

/-- What the trait promises its callers. -/
structure WalRedoManager.Lawful (m : WalRedoManager) : Prop where
  /-- No base, no page. -/
  noBase : ∀ key lsn vs, ¬ HasBase PageVersion.isBase vs → m.reconstruct key lsn vs = .ok none
  /-- With a base the page exists, or the attempt fails loudly. -/
  found : ∀ key lsn vs, HasBase PageVersion.isBase vs → m.reconstruct key lsn vs ≠ .ok none
  /-- Only the latest base and what follows it matter. -/
  fromLatest : ∀ key lsn lsn' vs vs',
    latest PageVersion.isBase vs = latest PageVersion.isBase vs' →
      m.reconstruct key lsn vs = m.reconstruct key lsn' vs'
  /-- A lone image is the page. -/
  image : ∀ key lsn l p, p.length = PAGE_SIZE →
    m.reconstruct key lsn [(l, .image p)] = .ok (some p)
  /-- Pages are full size. -/
  size : ∀ key lsn vs p, m.reconstruct key lsn vs = .ok (some p) → p.length = PAGE_SIZE

theorem nativeStep_length {e : Lsn × PageVersion} (hp : page.length = PAGE_SIZE)
    (h : nativeStep page e = .ok q) : q.length = PAGE_SIZE := by
  obtain ⟨l, v⟩ := e
  have happly : ∀ v : PageVersion,
      (v.applyTo page).mapError RedoError.apply = .ok q → q.length = PAGE_SIZE := by
    intro v hv
    cases ha : v.applyTo page with
    | error e => rw [ha] at hv; exact absurd hv (by simp [Except.mapError])
    | ok r =>
      rw [ha] at hv
      injection hv with hv
      rw [← hv]
      exact PageVersion.applyTo_length hp ha
  cases v with
  | walRecord w => simp [nativeStep] at h
  | image img => exact happly _ h
  | delta edits => exact happly _ h

theorem nativeReplay_length {vs : Versions} (h : nativeReplay vs = .ok (some p)) :
    p.length = PAGE_SIZE :=
  replay_invariant (I := fun p => p.length = PAGE_SIZE)
    (fun _ _ => nativeStep_length List.length_replicate) (fun _ _ _ => nativeStep_length) h

theorem nativeReplay_of_latest {vs rest : Versions} {b : Lsn × PageVersion}
    (hl : latest PageVersion.isBase vs = some (b, rest))
    (hb : nativeStep (List.replicate PAGE_SIZE 0) b = .ok p)
    (hr : rest.foldlM nativeStep p = .ok q) : nativeReplay vs = .ok (some q) := by
  simp only [nativeReplay, replay, hl, hb, Bind.bind, Except.bind, hr]
  rfl

theorem nativeStep_image (l : Lsn) (hp : p.length = PAGE_SIZE) :
    nativeStep page (l, .image p) = .ok p := by
  simp [nativeStep, PageVersion.applyTo, hp, Except.mapError]

/-- A version applied a second time changes nothing. -/
theorem nativeStep_twice {e : Lsn × PageVersion} (hp : page.length = PAGE_SIZE)
    (h : nativeStep page e = .ok q) : nativeStep q e = .ok q := by
  obtain ⟨l, v⟩ := e
  cases v with
  | walRecord w => simp [nativeStep] at h
  | image img => exact h
  | delta edits =>
    have happly : edits.foldlM PageVersion.applyEdit page = .ok q := by
      simp only [nativeStep, PageVersion.applyTo] at h
      cases ha : edits.foldlM PageVersion.applyEdit page with
      | error e => rw [ha] at h; exact absurd h (by simp [Except.mapError])
      | ok r =>
        rw [ha] at h
        injection h with h
        rw [h]
    simp only [nativeStep, PageVersion.applyTo]
    rw [PageVersion.foldlM_applyEdit_twice hp happly]
    rfl

theorem rustApply_lawful : rustApply.Lawful where
  noBase key lsn vs h := by
    rw [rustApply_eq_replay]
    exact replay_of_noBase h
  found key lsn vs h := by
    rw [rustApply_eq_replay]
    exact replay_ne_none_of_base h
  fromLatest key lsn lsn' vs vs' h := by
    rw [rustApply_eq_replay, rustApply_eq_replay, nativeReplay, nativeReplay, replay, replay, h]
  image key lsn l p hp := by
    rw [rustApply_eq_replay]
    simp only [nativeReplay, replay, latest, PageVersion.isBase, if_true]
    rw [nativeStep_image l hp]
    rfl
  size key lsn vs p h := by
    rw [rustApply_eq_replay] at h
    exact nativeReplay_length h

/-- The backend does not see whether a version is handed over once or twice in a
row. -/
def WalRedoManager.IgnoresCopies (m : WalRedoManager) : Prop :=
  ∀ key lsn pre e post,
    m.reconstruct key lsn (pre ++ e :: e :: post) = m.reconstruct key lsn (pre ++ e :: post)

/-- The native backend does not: a base is looked up from the end, and a delta or
image applied twice is applied once. -/
theorem rustApply_ignoresCopies : rustApply.IgnoresCopies := by
  intro key lsn pre e post
  rw [rustApply_eq_replay, rustApply_eq_replay]
  by_cases hb : HasBase PageVersion.isBase (e :: post)
  · have hcopy : HasBase PageVersion.isBase (e :: e :: post) :=
      hb.of_sub fun x hx => List.mem_cons_of_mem _ hx
    unfold nativeReplay
    rw [replay_append_of_base hcopy, replay_append_of_base hb]
    exact replay_append_of_base hb [e]
  · have hcopy : ¬ HasBase PageVersion.isBase (e :: e :: post) := by
      intro h
      refine hb (h.of_sub fun x hx => ?_)
      rcases List.mem_cons.mp hx with rfl | hx
      · exact List.mem_cons_self
      · exact hx
    rw [nativeReplay_append hcopy, nativeReplay_append hb]
    cases hpre : nativeReplay pre with
    | error err => rfl
    | ok found =>
      cases found with
      | none => rfl
      | some page =>
        dsimp only
        rw [List.foldlM_cons, List.foldlM_cons]
        cases hstep : nativeStep page e with
        | error err => rfl
        | ok q =>
          have htwice := nativeStep_twice (nativeReplay_length hpre) hstep
          simp only [Bind.bind, Except.bind, List.foldlM_cons, htwice]

end AethelDB.Pageserver
