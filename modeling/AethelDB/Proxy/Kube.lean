import AethelDB.Common.Text
import AethelDB.Lib.MergePatch
import AethelDB.Lib.Run
import AethelDB.Proxy.Tenant

/-!
# Compute as a Kubernetes Deployment

`KubeActivator` (`proxy/src/k8s.rs`) under the control API (`set_compute` and `set_pin` in
`proxy/src/control.rs`). The compute of a tenant is a Deployment whose name is rendered from a
template. A start or a stop patches its replica count; a start of a pinned tenant first patches
the annotation `aethel.io/timeline` of its pod template, from which compute learns the timeline it
is to serve.

The annotation is the only memory of the pin outside the proxy, and it is a memory of all starts:
`annotation_step` says what one request does to it, and `annotation_eq_pinned_iff` when a
successful start leaves it at the pin. A start without a pin leaves it as it was, so once a start
has patched it an unpinned tenant still comes up on the old timeline (`annotation_after_unpin`).
-/

namespace AethelDB.Proxy

open AethelDB.Lib

/-- What is not an object in a Deployment. -/
inductive Leaf where
  | num (n : Int)
  | str (text : String)
  /-- A Boolean or an array, as its JSON text. -/
  | raw (json : String)
deriving DecidableEq

/-- Where the replica count stands. The scale subresource has it at the same place. -/
def replicasPath : List String := ["spec", "replicas"]

/-- Where the timeline annotation stands. -/
def timelinePath : List String :=
  ["spec", "template", "metadata", "annotations", "aethel.io/timeline"]

/-- The Deployments of the namespace, by their names. -/
abbrev Cluster := String → Doc Leaf

/-- How a request to the API server ends. -/
inductive Outcome where
  | ok
  /-- It was carried out, but the reply is an error. -/
  | lost
  | refused
deriving DecidableEq

/-- The request was carried out. -/
def Outcome.applied : Outcome → Bool
  | .ok => true
  | .lost => true
  | .refused => false

/-- A merge patch of a Deployment, and whether it returns `Ok`. -/
def Cluster.patch (c : Cluster) (name : String) (patch : Doc Leaf) (outcome : Outcome) :
    Cluster × Bool :=
  (if outcome.applied then Function.update c name (.merge (some (c name)) patch) else c,
    outcome = .ok)

/-- The timeline annotation of a Deployment. -/
def Cluster.annotated (c : Cluster) (name : String) : Option (Doc Leaf) := (c name).get? timelinePath

def renderName (template tenant : String) : String :=
  Text.replace template "\x7btenant\x7d" tenant

structure KubeActivator where
  nameTemplate : String
deriving DecidableEq

namespace KubeActivator

variable (act : KubeActivator) (c : Cluster) (tenant : String)

def scale (replicas : Int) (outcome : Outcome) : Cluster × Bool :=
  c.patch (renderName act.nameTemplate tenant) (.nest replicasPath (.value (.num replicas))) outcome

/-- What the annotation is patched to. -/
def timelineValue : Option Timeline → Doc Leaf
  | none => .null
  | some timeline => .value (.str timeline)

def pinTimeline (timeline : Option Timeline) (outcome : Outcome) : Cluster × Bool :=
  c.patch (renderName act.nameTemplate tenant) (.nest timelinePath (timelineValue timeline)) outcome

/-- `Activator::start`. The outcomes are those of its two requests. -/
def start (timeline : Option Timeline) (pinned scaled : Outcome) : Cluster × Bool :=
  if timeline.isSome then
    let (c', ok) := act.pinTimeline c tenant timeline pinned
    if ok then act.scale c' tenant 1 scaled else (c', false)
  else act.scale c tenant 1 scaled

/-- `Activator::stop`. -/
def stop (scaled : Outcome) : Cluster × Bool := act.scale c tenant 0 scaled

variable {act c tenant}

/-- The annotation under a patch of the annotation itself or of something apart from it. -/
theorem annotation_patch (name : String) (patch : Doc Leaf) (outcome : Outcome) :
    (c.patch name patch outcome).1.annotated name =
      if outcome.applied then (Doc.merge (some (c name)) patch).get? timelinePath
      else c.annotated name := by
  unfold Cluster.patch Cluster.annotated
  split
  · show (Function.update c name (Doc.merge (some (c name)) patch) name).get? timelinePath = _
    rw [Function.update_self]
  · rfl

theorem annotation_scale (replicas : Int) (outcome : Outcome) :
    (act.scale c tenant replicas outcome).1.annotated (renderName act.nameTemplate tenant) =
      c.annotated (renderName act.nameTemplate tenant) := by
  have hapart := Doc.get?_merge_nest_of_apart (t := some (c (renderName act.nameTemplate tenant)))
    (d := .value (.num replicas)) ["spec"] [] ["metadata", "annotations", "aethel.io/timeline"]
    (show "template" ≠ "replicas" by decide)
  rw [scale, annotation_patch]
  split
  · exact hapart
  · rfl

theorem annotation_pinTimeline (timeline : Option Timeline) (outcome : Outcome) :
    (act.pinTimeline c tenant timeline outcome).1.annotated (renderName act.nameTemplate tenant) =
      if outcome.applied then timeline.map fun t => .value (.str t)
      else c.annotated (renderName act.nameTemplate tenant) := by
  rw [pinTimeline, annotation_patch]
  cases timeline with
  | none => rw [timelineValue, Doc.get?_merge_nest_null (by simp [timelinePath]), Option.map_none]
  | some t => rw [timelineValue, Doc.get?_merge_nest_value, Option.map_some]

/-- A start patches the annotation only if it is given a timeline. -/
theorem annotation_start (timeline : Option Timeline) (pinned scaled : Outcome) :
    (act.start c tenant timeline pinned scaled).1.annotated (renderName act.nameTemplate tenant) =
      if timeline.isSome && pinned.applied then timeline.map fun t => .value (.str t)
      else c.annotated (renderName act.nameTemplate tenant) := by
  unfold start
  cases timeline with
  | none => exact annotation_scale 1 scaled
  | some t =>
    have hpin : (act.pinTimeline c tenant (some t) pinned).1.annotated
        (renderName act.nameTemplate tenant) = _ := annotation_pinTimeline (some t) pinned
    simp only [Option.isSome_some, if_true, Bool.true_and]
    split
    · rw [annotation_scale, hpin]
    · rw [hpin]

/-- A start with a timeline that succeeds has patched the annotation. -/
theorem applied_of_start {t : Timeline} {pinned scaled : Outcome}
    (h : (act.start c tenant (some t) pinned scaled).2 = true) : pinned.applied = true := by
  cases pinned with
  | ok => rfl
  | lost => rfl
  | refused => simp [start, pinTimeline, Cluster.patch] at h

end KubeActivator

/-- A tenant and the namespace its compute is in. -/
structure Managed where
  tenant : TenantState
  cluster : Cluster

namespace Managed

variable (act : KubeActivator) (name : String) (s : Managed)

/-- The activator call of `set_compute`. -/
def activate (start : Bool) (pinned scaled : Outcome) : Cluster × Bool :=
  if start then act.start s.cluster name s.tenant.pinnedTimeline pinned scaled
  else act.stop s.cluster name scaled

/-- `set_compute` of the control API, and whether it answers 200. -/
def setCompute (start : Bool) (now : Nat) (pinned scaled : Outcome) : Managed × Bool :=
  let (c, ok) := s.activate act name start pinned scaled
  let running := s.tenant.setRunning start
  (⟨if ok then (if start then running.touch now else running) else s.tenant, c⟩, ok)

/-- `set_pin` of the control API. -/
def setPin (timeline : Option Timeline) (scaled : Outcome) : Managed :=
  let c := (act.stop s.cluster name scaled).1
  ⟨(s.tenant.setPinnedTimeline timeline).setRunning false, c⟩

/-- The requests that start, stop, pin and unpin. -/
inductive Request where
  | setCompute (start : Bool) (now : Nat) (pinned scaled : Outcome)
  | setPin (timeline : Option Timeline) (scaled : Outcome)
deriving DecidableEq

def step : Request → Managed
  | .setCompute start now pinned scaled => (s.setCompute act name start now pinned scaled).1
  | .setPin timeline scaled => s.setPin act name timeline scaled

def after (rs : List Request) : Managed := run (step act name) s rs

/-- The timeline annotation of the tenant's Deployment. -/
def annotated : Option (Doc Leaf) := s.cluster.annotated (renderName act.nameTemplate name)

/-- A start that patches the annotation. -/
def patchesTimeline : Request → Bool
  | .setCompute start _ pinned _ => start && s.tenant.pinnedTimeline.isSome && pinned.applied
  | .setPin _ _ => false

variable {act name s}

theorem pinnedTimeline_setCompute (start : Bool) (now : Nat) (pinned scaled : Outcome) :
    (s.setCompute act name start now pinned scaled).1.tenant.pinnedTimeline =
      s.tenant.pinnedTimeline := by
  simp only [setCompute]
  split
  · cases start <;> rfl
  · rfl

theorem isSome_of_patchesTimeline {r : Request} (h : s.patchesTimeline r = true) :
    s.tenant.pinnedTimeline.isSome = true := by
  cases r with
  | setPin timeline scaled => simp [patchesTimeline] at h
  | setCompute start now pinned scaled =>
    simp only [patchesTimeline, Bool.and_eq_true] at h
    exact h.1.2

theorem annotation_step (r : Request) :
    (s.step act name r).annotated act name =
      if s.patchesTimeline r then s.tenant.pinnedTimeline.map fun t => .value (.str t)
      else s.annotated act name := by
  cases r with
  | setPin timeline scaled => exact KubeActivator.annotation_scale 0 scaled
  | setCompute start now pinned scaled =>
    cases start with
    | false => exact KubeActivator.annotation_scale 0 scaled
    | true => exact KubeActivator.annotation_start s.tenant.pinnedTimeline pinned scaled

/-- The annotation is absent exactly if it was to begin with and no start has patched it. -/
theorem annotation_eq_none_iff (rs : List Request) :
    (s.after act name rs).annotated act name = none ↔
      s.annotated act name = none ∧
        Along (fun pre r => (s.after act name pre).patchesTimeline r = false) rs := by
  induction rs using List.reverseRecOn with
  | nil => exact ⟨fun h => ⟨h, fun _ _ _ hsplit => absurd hsplit (by simp)⟩, And.left⟩
  | append_singleton rs r ih =>
    rw [after, run_concat, ← after, annotation_step, along_concat, ← and_assoc, ← ih]
    cases hpatch : (s.after act name rs).patchesTimeline r with
    | false => simp
    | true =>
      have hpinned := isSome_of_patchesTimeline hpatch
      simp only [if_true, Option.map_eq_none_iff, Bool.true_eq_false, and_false, iff_false]
      exact Option.isSome_iff_ne_none.mp hpinned

end Managed

/-- **The annotation after a start.** Whatever the Deployment was like, and whichever requests with
whichever outcomes went before: after a start that succeeds the annotation is the pinned timeline,
absent if there is none, exactly if the tenant is pinned, or the annotation was absent to begin
with and no start has ever patched it. -/
theorem annotation_eq_pinned_iff (act : KubeActivator) (name : String) (s : Managed)
    (rs : List Managed.Request) (now : Nat) (pinned scaled : Outcome)
    (hok : ((s.after act name rs).setCompute act name true now pinned scaled).2 = true) :
    let s' := ((s.after act name rs).setCompute act name true now pinned scaled).1
    s'.annotated act name = s'.tenant.pinnedTimeline.map (fun t => .value (.str t)) ↔
      s'.tenant.pinnedTimeline.isSome = true ∨ (s.annotated act name = none ∧
        Along (fun pre r => (s.after act name pre).patchesTimeline r = false) rs) := by
  intro s'
  have hpin : s'.tenant.pinnedTimeline = (s.after act name rs).tenant.pinnedTimeline :=
    Managed.pinnedTimeline_setCompute true now pinned scaled
  have hann : s'.annotated act name = _ :=
    Managed.annotation_step (.setCompute true now pinned scaled)
  rw [hpin, hann, ← Managed.annotation_eq_none_iff]
  cases ht : (s.after act name rs).tenant.pinnedTimeline with
  | none => simp [Managed.patchesTimeline, ht]
  | some t =>
    have hstart : (act.start (s.after act name rs).cluster name (some t) pinned scaled).2 = true := by
      rw [← ht]
      exact hok
    have happlied := KubeActivator.applied_of_start hstart
    simp [Managed.patchesTimeline, ht, happlied]

namespace Managed

/-- A tenant that has just been registered, and Deployments without annotations. -/
def fresh : Managed := ⟨.new "shop:5432" false 0, fun _ => .obj fun _ => none⟩

/-- Compute is pinned to a restored timeline, started and unpinned. -/
def pinnedAndUnpinned : List Request :=
  [.setPin (some "pitr") .ok, .setCompute true 1 .ok .ok, .setPin none .ok]

end Managed

/-- A pinned start after a failed one. -/
theorem annotation_eq_pinned_iff_sample :
    let act : KubeActivator := ⟨"compute-\x7btenant\x7d"⟩
    let rs : List Managed.Request := [.setPin (some "pitr") .ok, .setCompute true 1 .lost .ok]
    let s' := ((Managed.fresh.after act "shop" rs).setCompute act "shop" true 2 .ok .ok).1
    s'.annotated act "shop" = s'.tenant.pinnedTimeline.map (fun t => .value (.str t)) :=
  (annotation_eq_pinned_iff _ _ _ _ 2 .ok .ok rfl).mpr (Or.inl rfl)

/-- After a pinned start and an unpin the next start succeeds, and compute still comes up with the
annotation of the restored timeline. -/
theorem annotation_after_unpin :
    let act : KubeActivator := ⟨"compute-\x7btenant\x7d"⟩
    let r := (Managed.fresh.after act "shop" Managed.pinnedAndUnpinned).setCompute act "shop" true 2
      .ok .ok
    r.2 = true ∧ r.1.tenant.pinnedTimeline = none ∧
      r.1.annotated act "shop" = some (.value (.str "pitr")) := by
  intro act r
  refine ⟨rfl, rfl, ?_⟩
  show ((Managed.fresh.after act "shop" Managed.pinnedAndUnpinned).step act "shop"
    (.setCompute true 2 .ok .ok)).annotated act "shop" = _
  simp only [Managed.after, Managed.pinnedAndUnpinned, run, List.foldl_cons, List.foldl_nil]
  rw [Managed.annotation_step, if_neg (by decide), Managed.annotation_step, if_neg (by decide),
    Managed.annotation_step, if_pos (by decide)]
  rfl

end AethelDB.Proxy
