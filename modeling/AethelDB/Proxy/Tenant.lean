import Mathlib

/-!
# A tenant's runtime state

`proxy/src/tenant.rs`: what the proxy knows of a tenant's compute. Times are in nanoseconds
since some instant, and reading the clock is an argument (`now`). The gauge of connections is
a natural number: it goes down only in the destructor of the guard that took it up.
-/

namespace AethelDB.Proxy

/-- The name of a timeline, as the control API gets it. -/
abbrev Timeline := String

structure ScramSecret where
  iterations : UInt32
  salt : List UInt8
  storedKey : Vector UInt8 32
  serverKey : Vector UInt8 32
deriving DecidableEq

/-- Mutable lifecycle state for a single tenant's compute node. -/
structure TenantState where
  backend : String
  /-- Whether the proxy believes compute to be up. -/
  running : Bool
  activeConns : Nat
  lastActive : Nat
  scram : Option ScramSecret
  /-- The timeline compute should serve from; `none` is the live root. -/
  pinnedTimeline : Option Timeline
  keepWarm : Bool
deriving DecidableEq

namespace TenantState

/-- State for a tenant whose backend lives at `backend`. -/
def new (backend : String) (running : Bool) (now : Nat) : TenantState where
  backend := backend
  running := running
  activeConns := 0
  lastActive := now
  scram := none
  pinnedTimeline := none
  keepWarm := false

/-- Like `new`, but with a SCRAM verifier. -/
def withScram (backend : String) (running : Bool) (scram : ScramSecret) (now : Nat) : TenantState :=
  { new backend running now with scram := some scram }

def setRunning (t : TenantState) (running : Bool) : TenantState := { t with running := running }

def setPinnedTimeline (t : TenantState) (timeline : Option Timeline) : TenantState :=
  { t with pinnedTimeline := timeline }

def setKeepWarm (t : TenantState) (keepWarm : Bool) : TenantState := { t with keepWarm := keepWarm }

def touch (t : TenantState) (now : Nat) : TenantState := { t with lastActive := now }

def connectionStarted (t : TenantState) (now : Nat) : TenantState :=
  { t with activeConns := t.activeConns + 1 }.touch now

def connectionFinished (t : TenantState) (now : Nat) : TenantState :=
  { t with activeConns := t.activeConns - 1 }.touch now

def idleFor (t : TenantState) (now : Nat) : Nat := now - t.lastActive

/-- It is safe to scale this tenant to zero. -/
def isReapable (t : TenantState) (now idleThreshold : Nat) : Bool :=
  t.running && !t.keepWarm && t.activeConns == 0 && idleThreshold ≤ t.idleFor now

theorem activeConns_of_isReapable {t : TenantState} {now idleThreshold : Nat}
    (h : t.isReapable now idleThreshold = true) : t.activeConns = 0 := by
  simp only [isReapable, Bool.and_eq_true, beq_iff_eq] at h
  exact h.1.2

end TenantState

end AethelDB.Proxy
