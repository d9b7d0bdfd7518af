import AethelDB.Lib.Pool
import AethelDB.Lib.Run
import AethelDB.Proxy.Tenant

/-!
# The lifecycle of a tenant's compute

Everything in the proxy that starts or stops the compute of a tenant: client connections
(`serve_over` and `ensure_awake` in `proxy/src/proxy.rs`), the reaper and the warmer
(`proxy/src/idle.rs`), and the requests of the control API (`set_compute`, `set_pin` and
`set_keep_warm` in `proxy/src/control.rs`). They run concurrently on one `TenantState` and
hold no lock across an await, so a run of the proxy is an interleaving of their segments.

Each operation is a `Task` that stands at one of its awaits, and `Task.segment` is the code
from there to the next. An activator call takes effect when it returns `Ok`, which is one
step, and the code behind it runs in another (`starting` and `started`, `stopping` and
`stopped`); in the same way a readiness probe first succeeds, which needs compute to be up,
and the connection goes on later (`probing` and `ready`). Of a reaper or warmer pass there is
one task for each time it collects the tenant.

An action resumes a task or lets something arrive, which begins as a `Fresh` task
(`System.step_cases`), and a segment leaves compute alone, starts it or stops it
(`Task.Moves.effects`). What holds in all interleavings is stated in `Proxy.ClientSafety` and
`Proxy.AtRest`.
-/

namespace AethelDB.Proxy

open AethelDB.Lib

/-- An activator call that took effect. -/
inductive Effect where
  | start (timeline : Option Timeline)
  | stop
deriving DecidableEq

/-- What the operations on a tenant share: its state in the proxy, its compute and the clock. -/
structure World where
  tenant : TenantState
  /-- The timeline that compute was started with, while it is up. -/
  compute : Option (Option Timeline)
  effects : List Effect
  now : Nat
deriving DecidableEq

/-- Who calls `Activator::start`. -/
inductive Starter where
  | client
  | warmer
  | setCompute
  | setKeepWarm
deriving DecidableEq

/-- Who calls `Activator::stop`. -/
inductive Stopper where
  | reaper
  | setCompute
  | setPin
deriving DecidableEq

/-- An operation in flight, at one of its awaits. -/
inductive Task where
  /-- A client in the SCRAM exchange. -/
  | authenticating
  /-- `activator.start` has been called. -/
  | starting (who : Starter) (timeline : Option Timeline)
  /-- `activator.start` has returned `Ok`. -/
  | started (who : Starter)
  /-- A client in `wait_until_ready`. -/
  | probing
  /-- Its probe has succeeded. -/
  | ready
  /-- `ensure_awake` has returned; the client is being connected to the backend. -/
  | connecting
  /-- The connection is counted and bytes are copied. -/
  | splicing
  /-- The reaper has the tenant on its list. -/
  | reapCollected
  /-- The warmer has the tenant on its list. -/
  | warmCollected
  /-- `activator.stop` has been called. -/
  | stopping (who : Stopper)
  /-- `activator.stop` has returned `Ok`. -/
  | stopped (who : Stopper)
deriving DecidableEq

namespace World

/-- A start takes effect; compute that is already up keeps its timeline. -/
def start (w : World) (timeline : Option Timeline) : World :=
  { w with
    compute := w.compute.or (some timeline)
    effects := w.effects ++ [.start timeline] }

def stop (w : World) : World := { w with compute := none, effects := w.effects ++ [.stop] }

def setRunning (w : World) (running : Bool) : World :=
  { w with tenant := w.tenant.setRunning running }

def touch (w : World) : World := { w with tenant := w.tenant.touch w.now }

def isReapable (w : World) (idleAfter : Nat) : Bool := w.tenant.isReapable w.now idleAfter

/-- `ensure_awake` up to its first await. -/
def ensureAwake (w : World) : Task :=
  if w.tenant.running then .probing else .starting .client w.tenant.pinnedTimeline

/-- A client that has sent its startup packet, up to its first await. -/
def serveOver (w : World) : Task :=
  if w.tenant.scram.isSome then .authenticating else w.ensureAwake

end World

/-- The code of a task from where it stands to its next await, when what it waits for has
turned out well (`ok`) or badly. -/
def Task.segment (idleAfter : Nat) (ok : Bool) (w : World) : Task → World × Option Task
  | .authenticating => (w, if ok then some w.ensureAwake else none)
  | .starting who timeline => if ok then (w.start timeline, some (.started who)) else (w, none)
  | .started .client => (w, some .probing)
  | .started _ => ((w.setRunning true).touch, none)
  -- a probe that finds compute down tries again
  | .probing => (w, if ok then some (if w.compute.isSome then .ready else .probing) else none)
  | .ready => (w.setRunning true, some .connecting)
  | .connecting =>
    if ok then ({ w with tenant := w.tenant.connectionStarted w.now }, some .splicing) else (w, none)
  | .splicing => ({ w with tenant := w.tenant.connectionFinished w.now }, none)
  | .reapCollected => (w, if w.isReapable idleAfter then some (.stopping .reaper) else none)
  | .warmCollected =>
    (w, if w.tenant.running || !w.tenant.keepWarm then none
      else some (.starting .warmer w.tenant.pinnedTimeline))
  | .stopping who =>
    if ok then (w.stop, some (.stopped who))
    -- `set_pin` ignores the error
    else (if who = .setPin then w.setRunning false else w, none)
  | .stopped _ => (w.setRunning false, none)

/-- One tenant and the operations on it. -/
abbrev System := Pool World Task

inductive Action where
  /-- A client for the tenant arrives. -/
  | connect
  /-- A reaper pass looks at the tenant. -/
  | reap
  /-- A warmer pass looks at the tenant. -/
  | warm
  /-- `POST /tenants/{name}/start` or `/stop`. -/
  | setCompute (start : Bool)
  /-- `POST /tenants/{name}/pin/{timeline}` or `/unpin`. -/
  | setPin (timeline : Option Timeline)
  /-- `POST /tenants/{name}/keepwarm` or `/nokeepwarm`. -/
  | setKeepWarm (on : Bool)
  /-- What task `i` waits for happens. -/
  | resume (i : Nat) (ok : Bool)
  | tick (nanos : Nat)
deriving DecidableEq

def System.step (idleAfter : Nat) (s : System) : Action → System
  | .connect => s.spawn [s.shared.serveOver]
  | .reap => s.spawn (if s.shared.isReapable idleAfter then [.reapCollected] else [])
  | .warm =>
    s.spawn (if s.shared.tenant.keepWarm && !s.shared.tenant.running then [.warmCollected] else [])
  | .setCompute start =>
    s.spawn [if start then .starting .setCompute s.shared.tenant.pinnedTimeline
      else .stopping .setCompute]
  | .setPin timeline =>
    Pool.spawn ⟨{ s.shared with tenant := s.shared.tenant.setPinnedTimeline timeline }, s.tasks⟩
      [.stopping .setPin]
  | .setKeepWarm on =>
    Pool.spawn ⟨{ s.shared with tenant := s.shared.tenant.setKeepWarm on }, s.tasks⟩
      (if on && !s.shared.tenant.running then
        [.starting .setKeepWarm s.shared.tenant.pinnedTimeline] else [])
  | .resume i ok => s.resume (Task.segment idleAfter ok) i
  | .tick nanos => ⟨{ s.shared with now := s.shared.now + nanos }, s.tasks⟩

/-- The system after some actions, with nothing in flight at first. -/
def System.after (idleAfter : Nat) (w : World) (as : List Action) : System :=
  run (System.step idleAfter) ⟨w, []⟩ as

/-- A tenant that has just been registered. -/
def World.registered (backend : String) (scram : Option ScramSecret) (now : Nat) : World where
  tenant := { TenantState.new backend false now with scram := scram }
  compute := none
  effects := []
  now := now

/-- Compute has never been started, and the flag says so. -/
structure World.Cold (w : World) : Prop where
  running : w.tenant.running = false
  compute : w.compute = none
  effects : w.effects = []

theorem World.Cold.registered (backend : String) (scram : Option ScramSecret) (now : Nat) :
    (World.registered backend scram now).Cold := ⟨rfl, rfl, rfl⟩

/-! ## What an action can do -/

/-- A task at its first await, or behind a check of the flag: what it read is still true. -/
inductive Fresh (w : World) : Task → Prop
  | authenticating : Fresh w .authenticating
  | starting (who : Starter) : Fresh w (.starting who w.tenant.pinnedTimeline)
  | probing (h : w.tenant.running = true) : Fresh w .probing
  | reapCollected : Fresh w .reapCollected
  | warmCollected : Fresh w .warmCollected
  | stopping (who : Stopper) : Fresh w (.stopping who)

namespace Fresh

variable {w : World}

theorem ensureAwake : Fresh w w.ensureAwake := by
  unfold World.ensureAwake
  split
  · next h => exact .probing h
  · exact .starting .client

theorem serveOver : Fresh w w.serveOver := by
  unfold World.serveOver
  split
  · exact .authenticating
  · exact ensureAwake

end Fresh

/-- New tasks begin, and of the tenant at most its settings change; its pin only together with a
stop. -/
structure Arrival (w w' : World) (new : List Task) : Prop where
  running : w'.tenant.running = w.tenant.running
  compute : w'.compute = w.compute
  effects : w'.effects = w.effects
  pinnedTimeline : w'.tenant.pinnedTimeline = w.tenant.pinnedTimeline ∨ ∃ who, .stopping who ∈ new
  fresh : ∀ t ∈ new, Fresh w' t

namespace Arrival

variable {w w' : World} {t : Task}

theorem nil (hrunning : w'.tenant.running = w.tenant.running) (hcompute : w'.compute = w.compute)
    (heffects : w'.effects = w.effects)
    (hpin : w'.tenant.pinnedTimeline = w.tenant.pinnedTimeline) : Arrival w w' [] :=
  ⟨hrunning, hcompute, heffects, Or.inl hpin, nofun⟩

theorem singleton (hrunning : w'.tenant.running = w.tenant.running)
    (hcompute : w'.compute = w.compute) (heffects : w'.effects = w.effects)
    (hpin : w'.tenant.pinnedTimeline = w.tenant.pinnedTimeline) (ht : Fresh w' t) :
    Arrival w w' [t] := by
  refine ⟨hrunning, hcompute, heffects, Or.inl hpin, fun t' ht' => ?_⟩
  rw [List.mem_singleton.mp ht']
  exact ht

end Arrival

/-- What an action does: it resumes a task, or something arrives. -/
theorem System.step_cases (idleAfter : Nat) (s : System) (a : Action) :
    (∃ i ok, a = .resume i ok) ∨
      ∃ w' new, s.step idleAfter a = Pool.spawn ⟨w', s.tasks⟩ new ∧ Arrival s.shared w' new := by
  cases a with
  | resume i ok => exact Or.inl ⟨i, ok, rfl⟩
  | connect => exact Or.inr ⟨_, _, rfl, .singleton rfl rfl rfl rfl .serveOver⟩
  | reap =>
    refine Or.inr ⟨_, _, rfl, ?_⟩
    split
    · exact .singleton rfl rfl rfl rfl .reapCollected
    · exact .nil rfl rfl rfl rfl
  | warm =>
    refine Or.inr ⟨_, _, rfl, ?_⟩
    split
    · exact .singleton rfl rfl rfl rfl .warmCollected
    · exact .nil rfl rfl rfl rfl
  | setCompute start =>
    refine Or.inr ⟨_, _, rfl, .singleton rfl rfl rfl rfl ?_⟩
    split
    · exact .starting .setCompute
    · exact .stopping .setCompute
  | setPin timeline =>
    refine Or.inr ⟨_, _, rfl, rfl, rfl, rfl, Or.inr ⟨.setPin, List.mem_singleton_self _⟩, ?_⟩
    intro t ht
    rw [List.mem_singleton.mp ht]
    exact .stopping .setPin
  | setKeepWarm on =>
    refine Or.inr ⟨_, _, rfl, ?_⟩
    split
    · exact .singleton rfl rfl rfl rfl (.starting .setKeepWarm)
    · exact .nil rfl rfl rfl rfl
  | tick nanos =>
    refine Or.inr ⟨{ s.shared with now := s.shared.now + nanos }, [], ?_, .nil rfl rfl rfl rfl⟩
    simp only [System.step, Pool.spawn, List.append_nil]

/-- A stop is in flight. -/
def Task.isStopping : Task → Bool
  | .stopping _ => true
  | _ => false

/-- Tasks that may end where they stand, with nothing done. -/
inductive Task.Quits (ok : Bool) : Task → Prop
  | authenticating : Quits ok .authenticating
  | starting (who : Starter) (timeline : Option Timeline) : Quits ok (.starting who timeline)
  | connecting : Quits ok .connecting
  | reapCollected : Quits ok .reapCollected
  | warmCollected : Quits ok .warmCollected
  | stopping {who : Stopper} (hok : ok = false) (hwho : who ≠ .setPin) : Quits ok (.stopping who)

/-- From one await of `ensure_awake` to the next, with a start behind it. -/
inductive Task.Climbs : Task → Task → Prop
  | probe : Climbs (.started .client) .probing
  | again : Climbs .probing .probing
  | ready : Climbs .probing .ready

/-- What a segment does: from a task, and how its wait has turned out, to the world behind it and
the task that goes on. -/
inductive Task.Moves (idleAfter : Nat) (w : World) (ok : Bool) : Task → World → List Task → Prop
  | quit {t} (ht : Quits ok t) : Moves idleAfter w ok t w []
  | climb {t n} (h : Climbs t n) : Moves idleAfter w ok t w [n]
  | awaken : Moves idleAfter w ok .authenticating w [w.ensureAwake]
  | warm : Moves idleAfter w ok .warmCollected w [.starting .warmer w.tenant.pinnedTimeline]
  | reap (h : w.isReapable idleAfter = true) :
    Moves idleAfter w ok .reapCollected w [.stopping .reaper]
  | start {who timeline} :
    Moves idleAfter w ok (.starting who timeline) (w.start timeline) [.started who]
  | announce {who} : Moves idleAfter w ok (.started who) (w.setRunning true).touch []
  | timeout (h : ok = false) : Moves idleAfter w ok .probing w []
  | awake : Moves idleAfter w ok .ready (w.setRunning true) [.connecting]
  | connected : Moves idleAfter w ok .connecting
    { w with tenant := w.tenant.connectionStarted w.now } [.splicing]
  | finish : Moves idleAfter w ok .splicing
    { w with tenant := w.tenant.connectionFinished w.now } []
  | stop {who} : Moves idleAfter w ok (.stopping who) w.stop [.stopped who]
  | ignored (h : ok = false) : Moves idleAfter w ok (.stopping .setPin) (w.setRunning false) []
  | clear {who} : Moves idleAfter w ok (.stopped who) (w.setRunning false) []

theorem Task.moves_segment (idleAfter : Nat) (ok : Bool) (w : World) (t : Task) :
    t.Moves idleAfter w ok (t.segment idleAfter ok w).1 (t.segment idleAfter ok w).2.toList := by
  cases t with
  | authenticating =>
    cases ok with
    | false => exact .quit .authenticating
    | true => exact .awaken
  | starting who timeline =>
    cases ok with
    | false => exact .quit (.starting who timeline)
    | true => exact .start
  | started who =>
    cases who with
    | client => exact .climb .probe
    | _ => exact .announce
  | probing =>
    cases ok with
    | false => exact .timeout rfl
    | true =>
      cases hcompute : w.compute with
      | none => simpa [Task.segment, hcompute] using .climb .again
      | some timeline => simpa [Task.segment, hcompute] using .climb .ready
  | ready => exact .awake
  | connecting =>
    cases ok with
    | false => exact .quit .connecting
    | true => exact .connected
  | splicing => exact .finish
  | reapCollected =>
    simp only [Task.segment]
    split
    · next h => exact .reap h
    · exact .quit .reapCollected
  | warmCollected =>
    simp only [Task.segment]
    split
    · exact .quit .warmCollected
    · exact .warm
  | stopping who =>
    cases ok with
    | true => exact .stop
    | false =>
      cases who with
      | setPin => exact .ignored rfl
      | _ => exact .quit (.stopping rfl nofun)
  | stopped who => exact .clear

/-- What a segment does to compute. -/
theorem Task.Moves.effects {idleAfter : Nat} {ok : Bool} {w w' : World} {t : Task}
    {new : List Task} (h : t.Moves idleAfter w ok w' new) :
    w'.compute = w.compute ∧ w'.effects = w.effects ∨
      (∃ timeline, w' = w.start timeline) ∨ t.isStopping = true ∧ w' = w.stop := by
  cases h with
  | start => exact Or.inr (Or.inl ⟨_, rfl⟩)
  | stop => exact Or.inr (Or.inr ⟨rfl, rfl⟩)
  | _ => exact Or.inl ⟨rfl, rfl⟩

end AethelDB.Proxy
