import AethelDB.Common.Text
import AethelDB.Proxy.Lifecycle

/-!
# Registering a tenant again

`register` of the control API (`proxy/src/control.rs`) says it is idempotent. The proxy as a whole
is modelled here: the registry maps names to shared `TenantState`s, and whoever has looked a tenant
up keeps the state it found, also when the name is registered anew (`Held`). What an operation does
is `Task.segment`, on the state it holds and the compute of the tenant's name.

A repeated `register` puts a fresh state in the registry. Nobody can tell (`register_again`) if the
old one was as good as fresh and held by nobody else, as long as the reaper looks at a running
tenant only after a connection has touched it. Otherwise the verifier, the pin, the keep-warm mark,
the flag and the connection count are lost (`register_forgets`).
-/

namespace AethelDB.Proxy

open AethelDB.Lib

/-- An operation in flight, with the name it was started for and the state it holds. -/
structure Held where
  name : String
  id : Nat
  task : Task
deriving DecidableEq

/-- What the operations of the proxy share. -/
structure ProxyState where
  /-- The state of each tenant, by its address. -/
  registry : List (String × Nat)
  heap : Nat → TenantState
  compute : String → Option (Option Timeline)
  effects : String → List Effect
  now : Nat

abbrev ProxySystem := Pool ProxyState Held

namespace ProxyState

variable (p : ProxyState)

/-- What an operation sees that was started for `name` and holds the state at `id`. -/
def world (name : String) (id : Nat) : World := ⟨p.heap id, p.compute name, p.effects name, p.now⟩

/-- The proxy after such an operation. -/
def put (name : String) (id : Nat) (w : World) : ProxyState :=
  { p with
    heap := Function.update p.heap id w.tenant
    compute := Function.update p.compute name w.compute
    effects := Function.update p.effects name w.effects }

def get (name : String) : Option Nat := p.registry.lookup name

/-- `Registry::register`, for a state at a new address. -/
def insert (name : String) (address : Nat) (state : TenantState) : ProxyState :=
  { p with
    registry := if (p.get name).isSome then
        p.registry.map fun e => if e.1 = name then (name, address) else e
      else p.registry ++ [(name, address)]
    heap := Function.update p.heap address state }

def backendFor (tmpl name : String) : String := Text.replace tmpl "\x7btenant\x7d" name

/-- `register` of the control API, and its status. -/
def register (tmpl name : String) (address : Nat) : ProxyState × Nat :=
  if Text.contains (backendFor tmpl name) ':' then
    (p.insert name address (.new (backendFor tmpl name) false p.now), 200)
  else (p, 400)

end ProxyState

/-- One segment of an operation, on the state it holds. -/
def Held.segment (idleAfter : Nat) (ok : Bool) (p : ProxyState) (h : Held) :
    ProxyState × Option Held :=
  let r := h.task.segment idleAfter ok (p.world h.name h.id)
  (p.put h.name h.id r.1, r.2.map fun t => ⟨h.name, h.id, t⟩)

/-- Connections, reaper passes and time. -/
inductive ProxyAction where
  | connect (name : String)
  | reap
  | resume (i : Nat) (ok : Bool)
  | tick (nanos : Nat)
deriving DecidableEq

namespace ProxySystem

def step (idleAfter : Nat) (s : ProxySystem) : ProxyAction → ProxySystem
  | .connect name =>
    match s.shared.get name with
    -- an unknown tenant is rejected
    | none => s
    | some id => s.spawn [⟨name, id, (s.shared.world name id).serveOver⟩]
  | .reap =>
    s.spawn ((s.shared.registry.filter fun e =>
      (s.shared.heap e.2).isReapable s.shared.now idleAfter).map fun e => ⟨e.1, e.2, .reapCollected⟩)
  | .resume i ok => s.resume (Held.segment idleAfter ok) i
  | .tick nanos => ⟨{ s.shared with now := s.shared.now + nanos }, s.tasks⟩

def after (idleAfter : Nat) (s : ProxySystem) (as : List ProxyAction) : ProxySystem :=
  run (step idleAfter) s as

def register (tmpl name : String) (address : Nat) (s : ProxySystem) : ProxySystem :=
  ⟨(s.shared.register tmpl name address).1, s.tasks⟩

end ProxySystem

/-- What can be told of a state: everything but when it was last active. -/
structure TenantView where
  backend : String
  running : Bool
  activeConns : Nat
  scram : Option ScramSecret
  pinnedTimeline : Option Timeline
  keepWarm : Bool
deriving DecidableEq

def TenantState.view (t : TenantState) : TenantView :=
  ⟨t.backend, t.running, t.activeConns, t.scram, t.pinnedTimeline, t.keepWarm⟩

/-- What can be told of the proxy: the tenants it knows, the operations in flight and what has
happened to compute. -/
structure ProxyView where
  tenants : List (String × TenantView)
  tasks : List (String × Task)
  compute : String → Option (Option Timeline)
  effects : String → List Effect
  now : Nat

def ProxySystem.view (s : ProxySystem) : ProxyView where
  tenants := s.shared.registry.map fun e => (e.1, (s.shared.heap e.2).view)
  tasks := s.tasks.map fun h => (h.name, h.task)
  compute := s.shared.compute
  effects := s.shared.effects
  now := s.shared.now

/-! ## The later touch of two -/

/-- The same state, active not before `t`. -/
def TenantState.activeSince (t : Nat) (s : TenantState) : TenantState :=
  { s with lastActive := max s.lastActive t }

def World.activeSince (t : Nat) (w : World) : World := { w with tenant := w.tenant.activeSince t }

section ActiveSince

variable {t idleAfter : Nat} {ok : Bool} {w : World}

theorem TenantState.isReapable_activeSince {s : TenantState} {now : Nat}
    (h : s.running = true → t ≤ s.lastActive) :
    (s.activeSince t).isReapable now idleAfter = s.isReapable now idleAfter := by
  cases hrunning : s.running with
  | false => simp [TenantState.isReapable, TenantState.activeSince, hrunning]
  | true =>
    have hsame : s.activeSince t = s := by
      rw [TenantState.activeSince, max_eq_left (h hrunning)]
    rw [hsame]

/-- A touch from then on makes no difference. -/
theorem TenantState.touch_activeSince {s : TenantState} {now : Nat} (ht : t ≤ now) :
    (s.touch now).activeSince t = s.touch now := by
  rw [TenantState.activeSince, TenantState.touch, max_eq_left ht]

/-- A segment takes no notice of when the state was last active, but for the reaper's recheck. -/
theorem Task.segment_activeSince (task : Task) (ht : t ≤ w.now)
    (hreap : task = .reapCollected → w.tenant.running = true → t ≤ w.tenant.lastActive) :
    task.segment idleAfter ok (w.activeSince t) =
      ((task.segment idleAfter ok w).1.activeSince t, (task.segment idleAfter ok w).2) := by
  have htouch : ∀ s : TenantState, (s.touch w.now).activeSince t = s.touch w.now :=
    fun s => TenantState.touch_activeSince ht
  cases task with
  | starting who timeline => cases ok <;> rfl
  | started who =>
    cases who with
    | client => rfl
    | _ =>
      simp only [Task.segment, World.activeSince, World.touch, World.setRunning, htouch]
      rfl
  | connecting =>
    cases ok with
    | false => rfl
    | true =>
      simp only [Task.segment, World.activeSince, TenantState.connectionStarted, htouch, if_true]
      rfl
  | splicing =>
    simp only [Task.segment, World.activeSince, TenantState.connectionFinished, htouch]
    rfl
  | reapCollected =>
    have hreapable : (w.activeSince t).isReapable idleAfter = w.isReapable idleAfter :=
      TenantState.isReapable_activeSince (hreap rfl)
    simp only [Task.segment, hreapable]
  | stopping who => cases ok <;> cases who <;> rfl
  | _ => rfl

end ActiveSince

/-! ## One state for another -/

/-- The address that takes the place of `id` when the state at `old` is replaced. -/
def readdress (old new id : Nat) : Nat := if id = old then new else id

def Held.readdress (old new : Nat) (h : Held) : Held := { h with id := Proxy.readdress old new h.id }

/-- Nobody holds the state at `id`. -/
def Unheld (s : ProxySystem) (id : Nat) : Prop := ∀ h ∈ s.tasks, h.id ≠ id

instance (s : ProxySystem) (id : Nat) : Decidable (Unheld s id) :=
  inferInstanceAs (Decidable (∀ h ∈ s.tasks, h.id ≠ id))

/-- Two proxies that differ in a tenant's state: where it is, and that one of the two has not been
active before `t`. -/
structure SameBut (old new t : Nat) (p p' : ProxyState) : Prop where
  registry : p'.registry = p.registry.map fun e => (e.1, readdress old new e.2)
  unregistered : ∀ e ∈ p.registry, e.2 ≠ new
  moved : p'.heap new = (p.heap old).activeSince t
  others : ∀ id, id ≠ old → id ≠ new → p'.heap id = p.heap id
  compute : p'.compute = p.compute
  effects : p'.effects = p.effects
  now : p'.now = p.now
  since : t ≤ p.now

namespace SameBut

variable {old new t idleAfter : Nat} {ok : Bool} {p p' : ProxyState} {name : String} {id : Nat}

theorem world (h : SameBut old new t p p') (name : String) (hid : id ≠ new) :
    p'.world name (readdress old new id) =
      if id = old then (p.world name id).activeSince t else p.world name id := by
  unfold readdress
  split
  · next heq => simp only [ProxyState.world, World.activeSince, heq, h.moved, h.compute, h.effects, h.now]
  · next hne => simp only [ProxyState.world, h.others id hne hid, h.compute, h.effects, h.now]

theorem put (h : SameBut old new t p p') (hid : id ≠ new) {w w' : World}
    (hw : w' = if id = old then w.activeSince t else w) :
    SameBut old new t (p.put name id w) (p'.put name (readdress old new id) w') := by
  have hcompute : w'.compute = w.compute := by rw [hw]; split <;> rfl
  have heffects : w'.effects = w.effects := by rw [hw]; split <;> rfl
  refine ⟨h.registry, h.unregistered, ?_, ?_, ?_, ?_, h.now, h.since⟩
  · show Function.update p'.heap _ w'.tenant new = (Function.update p.heap id w.tenant old).activeSince t
    unfold readdress
    split at hw
    · next heq => rw [if_pos heq, heq, Function.update_self, Function.update_self, hw]; rfl
    · next hne =>
      rw [if_neg hne, Function.update_of_ne (Ne.symm hid), Function.update_of_ne (Ne.symm hne), h.moved]
  · intro id' hold hnew
    show Function.update p'.heap _ w'.tenant id' = Function.update p.heap id w.tenant id'
    unfold readdress
    split at hw
    · next heq =>
      rw [if_pos heq, heq, Function.update_of_ne hnew, Function.update_of_ne hold, h.others id' hold hnew]
    · next hne =>
      rw [if_neg hne, hw]
      by_cases hsame : id' = id
      · rw [hsame, Function.update_self, Function.update_self]
      · rw [Function.update_of_ne hsame, Function.update_of_ne hsame, h.others id' hold hnew]
  · show Function.update p'.compute name w'.compute = Function.update p.compute name w.compute
    rw [h.compute, hcompute]
  · show Function.update p'.effects name w'.effects = Function.update p.effects name w.effects
    rw [h.effects, heffects]

theorem segment (h : SameBut old new t p p') {held : Held} (hid : held.id ≠ new)
    (hreap : held.task = .reapCollected → held.id = old →
      (p.heap old).running = true → t ≤ (p.heap old).lastActive) :
    SameBut old new t (held.segment idleAfter ok p).1
        ((held.readdress old new).segment idleAfter ok p').1 ∧
      ((held.readdress old new).segment idleAfter ok p').2 =
        (held.segment idleAfter ok p).2.map (Held.readdress old new) := by
  have hsegment : held.task.segment idleAfter ok (p'.world held.name (readdress old new held.id)) =
      (if held.id = old then (held.task.segment idleAfter ok (p.world held.name held.id)).1.activeSince t
        else (held.task.segment idleAfter ok (p.world held.name held.id)).1,
        (held.task.segment idleAfter ok (p.world held.name held.id)).2) := by
    rw [h.world held.name hid]
    split
    · next heq =>
      refine Task.segment_activeSince held.task h.since fun hcollected => ?_
      rw [heq]
      exact hreap hcollected heq
    · rfl
  refine ⟨h.put hid (congrArg Prod.fst hsegment), ?_⟩
  show (held.task.segment idleAfter ok (p'.world held.name (readdress old new held.id))).2.map _ = _
  rw [hsegment, Held.segment, Option.map_map]
  rfl

theorem get (h : SameBut old new t p p') (name : String) :
    p'.get name = (p.get name).map (readdress old new) := by
  rw [ProxyState.get, ProxyState.get, h.registry]
  induction p.registry with
  | nil => rfl
  | cons e registry ih =>
    obtain ⟨n, id⟩ := e
    simp only [List.map_cons, List.lookup_cons]
    cases name == n
    · exact ih
    · rfl

theorem heap (h : SameBut old new t p p') (hid : id ≠ new) :
    p'.heap (readdress old new id) =
      if id = old then (p.heap id).activeSince t else p.heap id := by
  have hw := congrArg World.tenant (h.world "" hid)
  rw [apply_ite World.tenant] at hw
  exact hw

end SameBut

/-- The state at `new` has taken the place of the one at `old`, for everybody. -/
structure Replaced (old new t : Nat) (s s' : ProxySystem) : Prop where
  shared : SameBut old new t s.shared s'.shared
  tasks : s'.tasks = s.tasks.map (Held.readdress old new)
  unheld : Unheld s new

/-- The reaper looks at the tenant only while it is down, or once it has been touched again. -/
def reapsTouched (old t : Nat) (s : ProxySystem) : ProxyAction → Bool
  | .reap => !(s.shared.heap old).running || t ≤ (s.shared.heap old).lastActive
  | .resume i _ =>
    match s.tasks[i]? with
    | some h => h.task != .reapCollected || h.id != old || !(s.shared.heap old).running ||
        t ≤ (s.shared.heap old).lastActive
    | none => true
  | _ => true

namespace Replaced

variable {old new t idleAfter : Nat} {s s' : ProxySystem}

theorem spawn (h : Replaced old new t s s') (ts : List Held) (hts : ∀ held ∈ ts, held.id ≠ new) :
    Replaced old new t (s.spawn ts) (s'.spawn (ts.map (Held.readdress old new))) := by
  refine ⟨h.shared, ?_, fun held hheld => ?_⟩
  · show s'.tasks ++ _ = (s.tasks ++ ts).map _
    rw [h.tasks, List.map_append]
  · rcases List.mem_append.mp hheld with hheld | hheld
    · exact h.unheld held hheld
    · exact hts held hheld

theorem connect (h : Replaced old new t s s') (name : String) :
    Replaced old new t (s.step idleAfter (.connect name)) (s'.step idleAfter (.connect name)) := by
  simp only [ProxySystem.step, h.shared.get name]
  cases hget : s.shared.get name with
  | none => exact h
  | some id =>
    obtain ⟨before, after, hsplit, -⟩ := List.lookup_eq_some_iff.mp hget
    have hid : id ≠ new := h.shared.unregistered (name, id) (by rw [hsplit]; simp)
    have hserve : (s'.shared.world name (readdress old new id)).serveOver =
        (s.shared.world name id).serveOver := by
      rw [h.shared.world name hid]
      split <;> rfl
    simp only [Option.map_some, hserve]
    exact h.spawn [⟨name, id, (s.shared.world name id).serveOver⟩] (by simpa using hid)

theorem reap (h : Replaced old new t s s')
    (htouched : (s.shared.heap old).running = true → t ≤ (s.shared.heap old).lastActive) :
    Replaced old new t (s.step idleAfter .reap) (s'.step idleAfter .reap) := by
  -- the reaper collects the same tenants
  have hfilter : s'.shared.registry.filter (fun e =>
      (s'.shared.heap e.2).isReapable s'.shared.now idleAfter) =
      (s.shared.registry.filter fun e => (s.shared.heap e.2).isReapable s.shared.now idleAfter).map
        fun e => (e.1, readdress old new e.2) := by
    rw [h.shared.registry, List.filter_map, h.shared.now]
    refine congrArg (List.map _) (List.filter_congr fun e he => ?_)
    show (s'.shared.heap (readdress old new e.2)).isReapable _ _ = _
    rw [h.shared.heap (h.shared.unregistered e he)]
    split
    · next heq =>
      rw [heq]
      exact TenantState.isReapable_activeSince htouched
    · rfl
  have hspawn := h.spawn ((s.shared.registry.filter fun e =>
    (s.shared.heap e.2).isReapable s.shared.now idleAfter).map fun e => ⟨e.1, e.2, .reapCollected⟩) (by
      intro held hheld
      obtain ⟨e, he, rfl⟩ := List.mem_map.mp hheld
      exact h.shared.unregistered e (List.mem_of_mem_filter he))
  rw [List.map_map] at hspawn
  simp only [ProxySystem.step, hfilter, List.map_map]
  exact hspawn

theorem resume {i : Nat} {ok : Bool} (h : Replaced old new t s s')
    (htouched : ∀ held, s.tasks[i]? = some held → held.task = .reapCollected → held.id = old →
      (s.shared.heap old).running = true → t ≤ (s.shared.heap old).lastActive) :
    Replaced old new t (s.step idleAfter (.resume i ok)) (s'.step idleAfter (.resume i ok)) := by
  have hboth := Pool.resume_map (Held.segment idleAfter ok) (i := i)
    h.shared h.tasks fun held hi =>
      h.shared.segment (h.unheld held (List.mem_of_getElem? hi)) (htouched held hi)
  refine ⟨hboth.1, hboth.2, ?_⟩
  refine Pool.resume_rule (I := fun s => Unheld s new) (fun _ _ _ hp hu held hheld =>
    hu held (hp.mem_iff.mpr hheld)) h.unheld fun held rest hi hp => ?_
  intro held' hheld'
  rcases List.mem_append.mp hheld' with hnext | hrest
  · obtain ⟨task, -, rfl⟩ := Option.map_eq_some_iff.mp (Option.mem_toList.mp hnext)
    exact h.unheld held (List.mem_of_getElem? hi)
  · exact h.unheld held' (hp.mem_iff.mpr (List.mem_cons_of_mem _ hrest))

theorem step {a : ProxyAction} (h : Replaced old new t s s') (hreap : reapsTouched old t s a = true) :
    Replaced old new t (s.step idleAfter a) (s'.step idleAfter a) := by
  cases a with
  | connect name => exact h.connect name
  | reap =>
    refine h.reap fun hrunning => ?_
    simpa [reapsTouched, hrunning] using hreap
  | resume i ok =>
    refine h.resume fun held hi hcollected hold hrunning => ?_
    simpa [reapsTouched, hi, hcollected, hold, hrunning] using hreap
  | tick nanos =>
    have hs := h.shared
    exact ⟨⟨hs.registry, hs.unregistered, hs.moved, hs.others, hs.compute, hs.effects,
      congrArg (· + nanos) hs.now, Nat.le_add_right_of_le hs.since⟩, h.tasks, h.unheld⟩

theorem view (h : Replaced old new t s s') : s'.view = s.view := by
  have htenants : s'.view.tenants = s.view.tenants := by
    show s'.shared.registry.map _ = s.shared.registry.map _
    rw [h.shared.registry, List.map_map]
    refine List.map_congr_left fun e he => ?_
    show (e.1, (s'.shared.heap (readdress old new e.2)).view) = (e.1, (s.shared.heap e.2).view)
    rw [h.shared.heap (h.shared.unregistered e he)]
    split <;> rfl
  have htasks : s'.view.tasks = s.view.tasks := by
    show s'.tasks.map _ = s.tasks.map _
    rw [h.tasks, List.map_map]
    rfl
  rw [ProxySystem.view, ProxySystem.view, ProxyView.mk.injEq]
  exact ⟨htenants, htasks, h.shared.compute, h.shared.effects, h.shared.now⟩

end Replaced

/-! ## The repeated request -/

/-- As good as a state that has just been made. -/
def TenantState.AsNew (s : TenantState) (now : Nat) : Prop :=
  s.view = (TenantState.new s.backend false now).view ∧ s.lastActive ≤ now

instance (s : TenantState) (now : Nat) : Decidable (s.AsNew now) :=
  inferInstanceAs (Decidable (_ ∧ _))

/-- The name is registered with the state at `old`, which nobody else has. -/
structure HeldByRegistry (s : ProxySystem) (name : String) (old : Nat) : Prop where
  get : s.shared.get name = some old
  only : ∀ e ∈ s.shared.registry, e.1 = name ↔ e.2 = old
  unheld : Unheld s old

/-- The state at `new` is yet to be made. -/
structure Unused (s : ProxySystem) (new : Nat) : Prop where
  unregistered : ∀ e ∈ s.shared.registry, e.2 ≠ new
  unheld : Unheld s new

theorem TenantState.AsNew.eq {s : TenantState} {now : Nat} (h : s.AsNew now) :
    s.activeSince now = .new s.backend false now := by
  obtain ⟨hview, hactive⟩ := h
  simp only [TenantState.view, TenantState.new, TenantView.mk.injEq] at hview
  obtain ⟨-, hrunning, hconns, hscram, hpin, hwarm⟩ := hview
  simp only [TenantState.activeSince, TenantState.new, max_eq_right hactive, hrunning, hconns, hscram,
    hpin, hwarm]

theorem Replaced.register {tmpl name : String} {s : ProxySystem} {old new : Nat}
    (hcolon : Text.contains (ProxyState.backendFor tmpl name) ':' = true)
    (hold : HeldByRegistry s name old) (hnew : Unused s new)
    (hbackend : (s.shared.heap old).backend = ProxyState.backendFor tmpl name)
    (hasNew : (s.shared.heap old).AsNew s.shared.now) :
    Replaced old new s.shared.now s (s.register tmpl name new) := by
  have hregister : s.register tmpl name new =
      ⟨s.shared.insert name new (.new (ProxyState.backendFor tmpl name) false s.shared.now),
        s.tasks⟩ := by
    rw [ProxySystem.register, ProxyState.register, if_pos hcolon]
  have hregistry : (s.shared.registry.map fun e => if e.1 = name then (name, new) else e) =
      s.shared.registry.map fun e => (e.1, readdress old new e.2) := by
    refine List.map_congr_left fun e he => ?_
    unfold readdress
    by_cases hname : e.1 = name
    · rw [if_pos hname, if_pos ((hold.only e he).mp hname), hname]
    · rw [if_neg hname, if_neg fun hid => hname ((hold.only e he).mpr hid)]
  rw [hregister]
  refine ⟨⟨?_, hnew.unregistered, ?_, ?_, rfl, rfl, rfl, le_rfl⟩, ?_, hnew.unheld⟩
  · simp only [ProxyState.insert, hold.get, Option.isSome_some, if_true]
    exact hregistry
  · rw [hasNew.eq, hbackend]
    exact Function.update_self _ _ _
  · exact fun id _ hid => Function.update_of_ne hid _ _
  · refine (List.map_id s.tasks).symm.trans (List.map_congr_left fun held hheld => ?_)
    rw [Held.readdress, readdress, if_neg (hold.unheld held hheld), id]

theorem Replaced.after {idleAfter old new t : Nat} {s s' : ProxySystem} (h : Replaced old new t s s')
    {as : List ProxyAction}
    (hreap : Along (fun pre a => reapsTouched old t (s.after idleAfter pre) a = true) as) :
    Replaced old new t (s.after idleAfter as) (s'.after idleAfter as) := by
  refine run_invariant (I := fun pre s => Replaced old new t s (s'.after idleAfter pre)) h ?_ as hreap
  intro pre a _ hstep hpre
  rw [ProxySystem.after, run_concat]
  exact hpre.step hstep

/-- **Registering again.** If the tenant's state is as good as new and nobody but the registry has
it, and the reaper looks at it only while it is down or once it has been touched again, then no
sequence of connections, reaper passes and steps of whatever is in flight can tell whether the
tenant was registered a second time: its verifier, pin, keep-warm mark, flag and connection count
are unchanged, and so is everything that happens to compute. -/
theorem register_again (idleAfter : Nat) (tmpl name : String) {s : ProxySystem} {old new : Nat}
    (hold : HeldByRegistry s name old) (hnew : Unused s new)
    (hbackend : (s.shared.heap old).backend = ProxyState.backendFor tmpl name)
    (hasNew : (s.shared.heap old).AsNew s.shared.now) {as : List ProxyAction}
    (hreap : Along (fun pre a => reapsTouched old s.shared.now (s.after idleAfter pre) a = true) as) :
    ((s.register tmpl name new).after idleAfter as).view = (s.after idleAfter as).view := by
  by_cases hcolon : Text.contains (ProxyState.backendFor tmpl name) ':' = true
  · exact ((Replaced.register hcolon hold hnew hbackend hasNew).after hreap).view
  · -- the request is refused
    rw [ProxySystem.register, ProxyState.register, if_neg hcolon]

/-- One tenant, at address 0. -/
def ProxySystem.single (t : TenantState) (tasks : List Held) (now : Nat) : ProxySystem :=
  ⟨⟨[("shop", 0)], fun _ => t, fun _ => none, fun _ => [], now⟩, tasks⟩

/-- A client is served, and compute is reaped when it has been idle. -/
theorem register_again_sample :
    let s := ProxySystem.single (.new "pg-shop:5432" false 0) [] 10
    let as : List ProxyAction := [.connect "shop", .resume 0 true, .resume 0 true, .resume 0 true,
      .resume 0 true, .resume 0 true, .resume 0 true, .tick 60, .reap, .resume 0 true, .resume 0 true]
    (s.after 60 as).view.effects "shop" = [.start none, .stop] ∧
      ((s.register "pg-\x7btenant\x7d:5432" "shop" 1).after 60 as).view = (s.after 60 as).view :=
  ⟨by decide, register_again 60 _ _ ⟨rfl, by decide, by decide⟩ ⟨by decide, by decide⟩
    (by decide) (by decide) (by decide)⟩

/-- A tenant with a verifier, a pin and a keep-warm mark that is up and has a connection. The
repeated request answers 200; after it all five are gone, and the next client is let through to a
cold start on the live timeline, without authentication. -/
theorem register_forgets :
    let secret : ScramSecret := ⟨4096, [], .replicate 32 1, .replicate 32 2⟩
    let t : TenantState := ⟨"pg-shop:5432", true, 1, 0, some secret, some "pitr", true⟩
    let s := ProxySystem.single t [⟨"shop", 0, .splicing⟩] 10
    let s' := s.register "pg-\x7btenant\x7d:5432" "shop" 1
    (s.shared.register "pg-\x7btenant\x7d:5432" "shop" 1).2 = 200 ∧
      s.view.tenants = [("shop", ⟨"pg-shop:5432", true, 1, some secret, some "pitr", true⟩)] ∧
      s'.view.tenants = [("shop", ⟨"pg-shop:5432", false, 0, none, none, false⟩)] ∧
      (s.after 60 [.connect "shop"]).view.tasks = [("shop", .splicing), ("shop", .authenticating)] ∧
      (s'.after 60 [.connect "shop"]).view.tasks =
        [("shop", .splicing), ("shop", .starting .client none)] := by
  decide

end AethelDB.Proxy
