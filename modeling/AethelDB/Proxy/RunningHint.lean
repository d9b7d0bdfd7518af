import AethelDB.Proxy.Lifecycle

/-!
# Compute that goes away by itself

`TenantState::running` is a hint with which `ensure_awake` and the warmer skip the activator; what
decides is the readiness probe. Here compute may disappear at any moment without a stop, and the
question is what becomes of the hint once a probe has failed: whether the next `ensure_awake`, and
the next warmer pass for a tenant that is kept warm, call `Activator::start` (`Heals`).

Every write of the flag is listed (`Task.flagWrite`), and a failed probe is not among them. So the
tenant heals exactly if the flag was clear before the probe failed, or has been cleared since
(`hint_heals_iff`). For an idle tenant the reaper does that in the end, by stopping compute that is
not there. It leaves out tenants that are kept warm, and the warmer leaves out tenants whose flag is
set: such a tenant stays down until someone asks for it in the control API (`Stuck.run`).
-/

namespace AethelDB.Proxy

open AethelDB.Lib

/-- What happens next, with compute that may go away. -/
inductive LossyAction where
  | proxy (a : Action)
  | computeLost
deriving DecidableEq

def System.stepLossy (idleAfter : Nat) (s : System) : LossyAction → System
  | .proxy a => s.step idleAfter a
  | .computeLost => ⟨{ s.shared with compute := none }, s.tasks⟩

/-- `activator.start` has been called. -/
def Task.isStarting : Task → Bool
  | .starting _ _ => true
  | _ => false

/-- Whoever looks at the tenant next has it started: `ensure_awake` as it is called now, and a
warmer pass, which puts the tenant on its list and looks at it again when it gets there. -/
structure Heals (idleAfter : Nat) (s : System) : Prop where
  ensureAwake : s.shared.ensureAwake.isStarting = true
  warm : s.shared.tenant.keepWarm = true → ∀ ok, ∃ t, (s.step idleAfter .warm).tasks = s.tasks ++ [t]
    ∧ (t.segment idleAfter ok (s.step idleAfter .warm).shared).2.any Task.isStarting = true

theorem heals_iff {idleAfter : Nat} {s : System} :
    Heals idleAfter s ↔ s.shared.tenant.running = false := by
  constructor
  · intro h
    by_contra hrunning
    have hawake := h.ensureAwake
    rw [World.ensureAwake, if_pos (by simpa using hrunning)] at hawake
    exact absurd hawake Bool.false_ne_true
  · intro hrunning
    refine ⟨by simp [World.ensureAwake, hrunning, Task.isStarting], fun hwarm ok => ?_⟩
    refine ⟨.warmCollected, ?_, ?_⟩
    · simp [System.step, Pool.spawn, hwarm, hrunning]
    · simp [System.step, Pool.spawn, Task.segment, hwarm, hrunning, Task.isStarting]

/-! ## Who writes the flag -/

/-- What the next segment of a task writes to the flag. -/
def Task.flagWrite (ok : Bool) : Task → Option Bool
  | .started .client => none
  | .started _ => some true
  | .ready => some true
  | .stopping .setPin => if ok then none else some false
  | .stopped _ => some false
  | _ => none

theorem Task.running_segment (idleAfter : Nat) (ok : Bool) (w : World) (t : Task) :
    (t.segment idleAfter ok w).1.tenant.running = (t.flagWrite ok).getD w.tenant.running := by
  cases t with
  | starting who timeline => cases ok <;> rfl
  | started who => cases who <;> rfl
  | connecting => cases ok <;> rfl
  | stopping who => cases ok <;> cases who <;> rfl
  | _ => rfl

namespace System

/-- What an action writes to the flag. -/
def flagWrite (s : System) : LossyAction → Option Bool
  | .proxy (.resume i ok) => s.tasks[i]?.bind (Task.flagWrite ok)
  | _ => none

/-- What a run writes to the flag, in order. -/
def flagWrites (idleAfter : Nat) (s : System) : List LossyAction → List Bool
  | [] => []
  | a :: as => (s.flagWrite a).toList ++ flagWrites idleAfter (s.stepLossy idleAfter a) as

/-- **One step.** -/
theorem running_stepLossy (idleAfter : Nat) (s : System) (a : LossyAction) :
    (s.stepLossy idleAfter a).shared.tenant.running
      = (s.flagWrite a).getD s.shared.tenant.running := by
  cases a with
  | computeLost => rfl
  | proxy a =>
    cases a with
    | resume i ok =>
      simp only [stepLossy, step, flagWrite]
      rcases Pool.resume_cases (Task.segment idleAfter ok) i s with
        ⟨hnone, hsame⟩ | ⟨t, rest, hi, -, hshared, -⟩
      · rw [hsame, hnone]
        rfl
      · rw [hshared, hi, Option.bind_some, Task.running_segment]
    | _ => rfl

/-- **A run**: the flag is what was written last. -/
theorem running_run (idleAfter : Nat) (s : System) (as : List LossyAction) :
    (run (stepLossy idleAfter) s as).shared.tenant.running
      = (s.flagWrites idleAfter as).getLastD s.shared.tenant.running := by
  induction as generalizing s with
  | nil => rfl
  | cons a as ih =>
    have hrun : run (stepLossy idleAfter) s (a :: as)
        = run (stepLossy idleAfter) (s.stepLossy idleAfter a) as := rfl
    rw [hrun, ih, running_stepLossy, flagWrites]
    cases s.flagWrite a with
    | none => rfl
    | some b => rw [Option.getD_some, Option.toList_some, List.singleton_append, List.getLastD_cons]

end System

/-- **The hint heals itself** after a failed probe, in every state and however the run goes on,
exactly if the flag was clear before the probe failed, or if its last write since then cleared it. -/
theorem hint_heals_iff (idleAfter : Nat) (s : System) (i : Nat) (hprobe : s.tasks[i]? = some .probing)
    (mid : List LossyAction) :
    let failed := s.stepLossy idleAfter (.proxy (.resume i false))
    Heals idleAfter (run (System.stepLossy idleAfter) failed mid)
      ↔ (failed.flagWrites idleAfter mid).getLastD s.shared.tenant.running = false := by
  intro failed
  have hkept : failed.shared.tenant.running = s.shared.tenant.running := by
    rw [System.running_stepLossy, System.flagWrite, hprobe]
    rfl
  rw [heals_iff, System.running_run, hkept]

/-- A client has a tenant started, and compute is lost before it has been probed. -/
def coldTenant : System :=
  run (System.stepLossy 100) ⟨World.registered "10.0.0.1:5432" none 0, []⟩
    [.proxy .connect, .proxy (.resume 0 true), .proxy (.resume 0 true), .computeLost]

/-- The flag has never been set, so the next client has it started again. -/
theorem hint_heals_iff_cold :
    coldTenant.tasks = [.probing]
      ∧ Heals 100 (run (System.stepLossy 100)
          (coldTenant.stepLossy 100 (.proxy (.resume 0 false))) [.proxy (.tick 5)]) :=
  ⟨by decide, (hint_heals_iff 100 coldTenant 0 (by decide) [.proxy (.tick 5)]).mpr (by decide)⟩

/-! ## Tenants that are kept warm -/

/-- Neither calls the activator nor writes the flag, as long as the flag is set and compute down. -/
def Task.isPassive : Task → Bool
  | .authenticating => true
  | .probing => true
  | .connecting => true
  | .splicing => true
  | .reapCollected => true
  | .warmCollected => true
  | _ => false

/-- A request of the control API for the tenant. -/
def LossyAction.isControl : LossyAction → Bool
  | .proxy (.setCompute _) => true
  | .proxy (.setPin _) => true
  | .proxy (.setKeepWarm _) => true
  | _ => false

/-- A tenant that is kept warm and marked running has lost its compute. -/
structure Stuck (effects : List Effect) (s : System) : Prop where
  running : s.shared.tenant.running = true
  keepWarm : s.shared.tenant.keepWarm = true
  compute : s.shared.compute = none
  effects : s.shared.effects = effects
  passive : ∀ t ∈ s.tasks, t.isPassive = true

namespace Stuck

variable {effects : List Effect} {idleAfter : Nat} {s : System}

theorem ensureAwake (h : Stuck effects s) : s.shared.ensureAwake = .probing := if_pos h.running

theorem not_reapable (h : Stuck effects s) (idleAfter : Nat) : s.shared.isReapable idleAfter = false := by
  simp [World.isReapable, TenantState.isReapable, h.keepWarm]

theorem spawn (h : Stuck effects s) {ts : List Task} (hts : ∀ t ∈ ts, t.isPassive = true) :
    Stuck effects (s.spawn ts) := by
  refine ⟨h.running, h.keepWarm, h.compute, h.effects, fun t ht => ?_⟩
  exact (List.mem_append.mp ht).elim (h.passive t) (hts t)

/-- A passive task leaves the tenant as it is and stays passive. -/
theorem segment (h : Stuck effects s) (ok : Bool) {t : Task} (ht : t.isPassive = true) :
    Stuck effects ⟨(t.segment idleAfter ok s.shared).1, (t.segment idleAfter ok s.shared).2.toList⟩ := by
  have hsame : ∀ {ts : List Task}, (∀ t ∈ ts, t.isPassive = true) → Stuck effects ⟨s.shared, ts⟩ :=
    fun hts => ⟨h.running, h.keepWarm, h.compute, h.effects, hts⟩
  cases t with
  | authenticating =>
    refine hsame ?_
    cases ok <;> simp [Task.segment, h.ensureAwake, Task.isPassive]
  | probing =>
    refine hsame ?_
    cases ok <;> simp [Task.segment, h.compute, Task.isPassive]
  | connecting =>
    cases ok with
    | false => exact hsame (by simp [Task.segment])
    | true => exact ⟨h.running, h.keepWarm, h.compute, h.effects, by simp [Task.segment, Task.isPassive]⟩
  | splicing => exact ⟨h.running, h.keepWarm, h.compute, h.effects, by simp [Task.segment]⟩
  | reapCollected => exact hsame (by simp [Task.segment, h.not_reapable])
  | warmCollected => exact hsame (by simp [Task.segment, h.running])
  | _ => exact absurd ht Bool.false_ne_true

theorem perm (h : Stuck effects s) {ts : List Task} (hp : s.tasks.Perm ts) :
    Stuck effects ⟨s.shared, ts⟩ :=
  ⟨h.running, h.keepWarm, h.compute, h.effects, fun t ht => h.passive t (hp.mem_iff.mpr ht)⟩

/-- **One step.** -/
theorem step (h : Stuck effects s) {a : LossyAction} (ha : a.isControl = false) :
    Stuck effects (s.stepLossy idleAfter a) := by
  cases a with
  | computeLost => exact ⟨h.running, h.keepWarm, rfl, h.effects, h.passive⟩
  | proxy a =>
    cases a with
    | connect =>
      refine h.spawn fun t ht => ?_
      rw [List.mem_singleton.mp ht, World.serveOver, h.ensureAwake]
      split <;> rfl
    | reap =>
      refine h.spawn ?_
      simp [h.not_reapable]
    | warm =>
      refine h.spawn ?_
      simp [h.running]
    | resume i ok =>
      refine Pool.resume_rule (I := Stuck effects) (fun _ _ _ hp hi => hi.perm hp) h fun t rest hi hp => ?_
      have hnext : Stuck effects
          ⟨(t.segment idleAfter ok s.shared).1, (t.segment idleAfter ok s.shared).2.toList⟩ :=
        h.segment ok (h.passive t (List.mem_of_getElem? hi))
      refine ⟨hnext.running, hnext.keepWarm, hnext.compute, hnext.effects, fun t' ht' => ?_⟩
      rcases List.mem_append.mp ht' with ht' | ht'
      · exact hnext.passive t' ht'
      · exact h.passive t' (hp.mem_iff.mpr (List.mem_cons_of_mem _ ht'))
    | tick nanos => exact ⟨h.running, h.keepWarm, h.compute, h.effects, h.passive⟩
    | _ => exact absurd ha.symm Bool.false_ne_true

/-- **It stays down.** Without a request of the control API, no connection, reaper or warmer pass
ever calls the activator again. -/
theorem run (h : Stuck effects s) {as : List LossyAction} (has : ∀ a ∈ as, a.isControl = false) :
    Stuck effects (Lib.run (System.stepLossy idleAfter) s as) := by
  refine run_invariant (I := fun _ s => Stuck effects s) h ?_ as (along_of_forall has)
  exact fun _ a _ ha hs => hs.step ha

end Stuck

/-- A tenant is started by a client and kept warm; when the client has gone, compute is lost, and
the next client finds nobody there. -/
def lostRun : List LossyAction :=
  [.proxy .connect, .proxy (.resume 0 true), .proxy (.resume 0 true), .proxy (.resume 0 true),
    .proxy (.resume 0 true), .proxy (.resume 0 true), .proxy (.resume 0 true),
    .proxy (.setKeepWarm true), .computeLost, .proxy .connect]

/-- The tenant after that. -/
def lostTenant : System :=
  run (System.stepLossy 100) ⟨World.registered "10.0.0.1:5432" none 0, []⟩ lostRun

/-- The probe of the client fails, and still the next client probes only, and the warmer passes the
tenant by. Whatever clients, reaper and warmer do, the activator is not called any more. -/
theorem failed_probe_changes_nothing :
    lostTenant.tasks = [.probing] ∧ lostTenant.shared.compute = none
      ∧ lostTenant.shared.effects = [.start none]
      ∧ (lostTenant.stepLossy 100 (.proxy (.resume 0 false))).shared.tenant.keepWarm = true
      ∧ (lostTenant.stepLossy 100 (.proxy (.resume 0 false))).shared.ensureAwake = .probing
      ∧ ((lostTenant.stepLossy 100 (.proxy (.resume 0 false))).step 100 .warm).tasks = []
      ∧ ¬ Heals 100 (lostTenant.stepLossy 100 (.proxy (.resume 0 false)))
      ∧ ∀ as : List LossyAction, (∀ a ∈ as, a.isControl = false) →
        (run (System.stepLossy 100) (lostTenant.stepLossy 100 (.proxy (.resume 0 false))) as).shared.effects
          = [.start none] := by
  have hstuck : Stuck [.start none] (lostTenant.stepLossy 100 (.proxy (.resume 0 false))) :=
    ⟨by decide, by decide, by decide, by decide, by decide⟩
  refine ⟨by decide, by decide, by decide, hstuck.keepWarm, hstuck.ensureAwake, by decide,
    fun h => ?_, fun as has => (hstuck.run has).effects⟩
  exact absurd (heals_iff.mp h) (by rw [hstuck.running]; exact Bool.false_ne_true.symm)

end AethelDB.Proxy
