import AethelDB.Proxy.Lifecycle

/-!
# No stop under a client

A client that `ensure_awake` has let through counts on its compute until it leaves. What protects
it is the reaper's check of the connection gauge, and there are two gaps: the gauge counts a
connection only once the backend has been dialled, and nothing is checked once the reaper has
called the activator. Outside of them no stop takes effect under a client, for every interleaving
(`stops_only_without_clients`); in each of them one does (`stop_under_client`).
-/

namespace AethelDB.Proxy

open AethelDB.Lib

namespace Task

/-- `ensure_awake` has returned `Ok` and the connection has not ended. -/
def isClient : Task → Bool
  | .connecting => true
  | .splicing => true
  | _ => false

/-- The connection is counted. -/
def isSplicing : Task → Bool
  | .splicing => true
  | _ => false

theorem isClient_of_isSplicing {t : Task} (h : t.isSplicing = true) : t.isClient = true := by
  cases t with
  | splicing => rfl
  | _ => simp [isSplicing] at h

end Task

/-- The gauge counts the connections that copy bytes, and where a stop is in flight there is no
client. -/
structure ClientInv (s : System) : Prop where
  gauge : s.shared.tenant.activeConns = s.tasks.countP Task.isSplicing
  apart : ∀ t ∈ s.tasks, t.isStopping = true → ∀ c ∈ s.tasks, c.isClient = false

namespace ClientInv

variable {w w' : World} {ts ts' : List Task}

theorem perm (h : ClientInv ⟨w, ts⟩) (hp : ts.Perm ts') : ClientInv ⟨w, ts'⟩ where
  gauge := h.gauge.trans (hp.countP_eq _)
  apart t ht hstop c hc := h.apart t (hp.mem_iff.mpr ht) hstop c (hp.mem_iff.mpr hc)

/-- Tasks that are neither stops in flight nor clients come and go freely. -/
theorem exchange (new : List Task) {rest new' : List Task} (h : ClientInv ⟨w, new ++ rest⟩)
    (hconns : w'.tenant.activeConns = w.tenant.activeConns)
    (hnew : ∀ t ∈ new, t.isSplicing = false)
    (hnew' : ∀ t ∈ new', t.isStopping = false ∧ t.isClient = false) : ClientInv ⟨w', new' ++ rest⟩ where
  gauge := by
    have hnone : new'.countP Task.isSplicing = 0 := by
      rw [List.countP_eq_zero]
      intro t ht hsplicing
      exact absurd (Task.isClient_of_isSplicing hsplicing) (by simp [(hnew' t ht).2])
    have hnone' : new.countP Task.isSplicing = 0 := by
      rw [List.countP_eq_zero]
      intro t ht hsplicing
      simp [hnew t ht] at hsplicing
    have hgauge := h.gauge
    simp only [List.countP_append] at hgauge ⊢
    omega
  apart := by
    intro t ht hstop c hc
    rcases List.mem_append.mp ht with ht | ht
    · simp [(hnew' t ht).1] at hstop
    rcases List.mem_append.mp hc with hc | hc
    · exact (hnew' c hc).2
    · exact h.apart t (List.mem_append_right _ ht) hstop c (List.mem_append_right _ hc)

theorem spawn {s : System} (h : ClientInv s)
    (hconns : w'.tenant.activeConns = s.shared.tenant.activeConns) {new : List Task}
    (hnew : ∀ t ∈ new, t.isStopping = false ∧ t.isClient = false) :
    ClientInv (Pool.spawn ⟨w', s.tasks⟩ new) :=
  (exchange [] h hconns (by simp) hnew).perm List.perm_append_comm

end ClientInv

/-- A hibernate or pin request of the control API. -/
def Action.isControlStop : Action → Bool
  | .setCompute start => !start
  | .setPin _ => true
  | _ => false

/-- The two gaps are avoided: the reaper does not decide for a stop while a client is between
its wake-up and its connection being counted, and no wake-up succeeds while a stop is in
flight. -/
def outsideGaps (idleAfter : Nat) (s : System) : Action → Bool
  | .resume i _ =>
    match s.tasks[i]? with
    | some .reapCollected => !s.shared.isReapable idleAfter || !s.tasks.contains .connecting
    | some .ready => !s.tasks.any Task.isStopping
    | _ => true
  | _ => true

theorem World.serveOver_plain (w : World) :
    w.ensureAwake.isStopping = false ∧ w.ensureAwake.isClient = false ∧
      w.serveOver.isStopping = false ∧ w.serveOver.isClient = false := by
  unfold World.serveOver World.ensureAwake
  cases w.tenant.scram.isSome <;> cases w.tenant.running <;> exact ⟨rfl, rfl, rfl, rfl⟩

namespace ClientInv

variable {idleAfter : Nat} {ok : Bool} {w w' : World} {t : Task} {rest new : List Task}

/-- A task goes on, or ends, with neither a stop in flight nor a client behind it. -/
theorem of_plain (h : ClientInv ⟨w, t :: rest⟩) (ht : t.isSplicing = false)
    (hconns : w'.tenant.activeConns = w.tenant.activeConns)
    (hnew : ∀ n ∈ new, n.isStopping = false ∧ n.isClient = false) :
    ClientInv ⟨w', new ++ rest⟩ := by
  refine exchange [t] h hconns (fun n hn => ?_) hnew
  rw [List.mem_singleton.mp hn]
  exact ht

theorem moves (h : ClientInv ⟨w, t :: rest⟩) (hm : t.Moves idleAfter w ok w' new)
    (hreap : t = .reapCollected → w.isReapable idleAfter = true → Task.connecting ∉ rest)
    (hready : t = .ready → ∀ t' ∈ rest, t'.isStopping = false) :
    ClientInv ⟨w', new ++ rest⟩ := by
  have hgauge := h.gauge
  have hplain : ∀ n : Task, n.isStopping = false → n.isClient = false →
      ∀ n' ∈ [n], n'.isStopping = false ∧ n'.isClient = false :=
    fun n hstop hclient n' hn' => List.mem_singleton.mp hn' ▸ ⟨hstop, hclient⟩
  cases hm with
  | awake =>
    refine ⟨hgauge, ?_⟩
    intro t' ht' hstop
    rcases List.mem_cons.mp ht' with rfl | ht'
    · simp [Task.isStopping] at hstop
    · simp [hready rfl t' ht'] at hstop
  | connected =>
    refine ⟨?_, ?_⟩
    · show w.tenant.activeConns + 1 = (Task.splicing :: rest).countP Task.isSplicing
      rw [List.countP_cons_of_pos rfl, hgauge]
      exact congrArg (· + 1) (List.countP_cons_of_neg (by simp [Task.isSplicing]))
    · -- the client was there before, so no stop is in flight
      intro t' ht' hstop
      rcases List.mem_cons.mp ht' with rfl | ht'
      · simp [Task.isStopping] at hstop
      · exact absurd (h.apart t' (List.mem_cons_of_mem _ ht') hstop .connecting List.mem_cons_self)
          (by simp [Task.isClient])
  | finish =>
    refine ⟨?_, ?_⟩
    · show w.tenant.activeConns - 1 = rest.countP Task.isSplicing
      rw [hgauge, List.countP_cons_of_pos rfl, Nat.add_sub_cancel]
    · intro t' ht' hstop c hc
      exact h.apart t' (List.mem_cons_of_mem _ ht') hstop c (List.mem_cons_of_mem _ hc)
  | reap hreapable =>
    have hnone : rest.countP Task.isSplicing = 0 :=
      hgauge.symm.trans (TenantState.activeConns_of_isReapable hreapable)
    refine ⟨hgauge, ?_⟩
    intro t' _ _ c hc
    rcases List.mem_cons.mp hc with rfl | hc
    · rfl
    · cases c with
      | connecting => exact absurd hc (hreap rfl hreapable)
      | splicing => exact absurd rfl (List.countP_eq_zero.mp hnone .splicing hc)
      | _ => rfl
  | quit ht => exact h.of_plain (by cases ht <;> rfl) rfl nofun
  | climb hc =>
    exact h.of_plain (by cases hc <;> rfl) rfl (hplain _ (by cases hc <;> rfl) (by cases hc <;> rfl))
  | awaken =>
    exact h.of_plain rfl rfl (hplain _ w.serveOver_plain.1 w.serveOver_plain.2.1)
  | warm => exact h.of_plain rfl rfl (hplain _ rfl rfl)
  | start => exact h.of_plain rfl rfl (hplain _ rfl rfl)
  | stop => exact h.of_plain rfl rfl (hplain _ rfl rfl)
  | _ => exact h.of_plain rfl rfl nofun

theorem step {s : System} {a : Action} (h : ClientInv s) (hcontrol : a.isControlStop = false)
    (hgaps : outsideGaps idleAfter s a = true) : ClientInv (s.step idleAfter a) := by
  cases a with
  | connect =>
    refine h.spawn rfl fun t ht => ?_
    rw [List.mem_singleton.mp ht]
    exact s.shared.serveOver_plain.2.2
  | reap =>
    refine h.spawn rfl fun t ht => ?_
    split at ht
    · rw [List.mem_singleton.mp ht]
      exact ⟨rfl, rfl⟩
    · nomatch ht
  | warm =>
    refine h.spawn rfl fun t ht => ?_
    split at ht
    · rw [List.mem_singleton.mp ht]
      exact ⟨rfl, rfl⟩
    · nomatch ht
  | setCompute start =>
    refine h.spawn rfl fun t ht => ?_
    have hstart : start = true := by simpa [Action.isControlStop] using hcontrol
    rw [List.mem_singleton.mp ht, hstart]
    exact ⟨rfl, rfl⟩
  | setPin timeline => simp [Action.isControlStop] at hcontrol
  | setKeepWarm on =>
    refine ClientInv.spawn h ?_ fun t ht => ?_
    · rfl
    split at ht
    · rw [List.mem_singleton.mp ht]
      exact ⟨rfl, rfl⟩
    · nomatch ht
  | tick nanos => exact ⟨h.gauge, h.apart⟩
  | resume i ok =>
    refine Pool.resume_rule (fun _ _ _ hp hi => hi.perm hp) h fun t rest hi hperm => ?_
    have hrest : ∀ t' ∈ rest, t' ∈ s.tasks := fun t' ht' =>
      hperm.mem_iff.mpr (List.mem_cons_of_mem _ ht')
    simp only [outsideGaps, hi] at hgaps
    refine (h.perm hperm).moves (t.moves_segment ..) ?_ ?_
    · rintro rfl hreapable hmem
      simp only [hreapable, Bool.not_true, Bool.false_or, Bool.not_eq_true',
        List.contains_iff_mem, ← Bool.not_eq_true] at hgaps
      exact hgaps (hrest _ hmem)
    · rintro rfl t' ht'
      simp only [Bool.not_eq_true', List.any_eq_false] at hgaps
      simpa using hgaps t' (hrest t' ht')

end ClientInv

/-- An activator stop takes effect. -/
def stopTakesEffect (idleAfter : Nat) (s : System) (a : Action) : Bool :=
  (s.step idleAfter a).shared.effects = s.shared.effects ++ [.stop]

/-- Only a stop in flight takes effect. -/
theorem stopping_of_stopTakesEffect {idleAfter : Nat} {s : System} {a : Action}
    (h : stopTakesEffect idleAfter s a = true) : ∃ t ∈ s.tasks, t.isStopping = true := by
  have heffects := of_decide_eq_true h
  have hself : s.shared.effects ≠ s.shared.effects ++ [.stop] := by simp
  cases a with
  | resume i ok =>
    rcases Pool.resume_cases (Task.segment idleAfter ok) i s with ⟨-, hsame⟩ |
      ⟨t, rest, hi, hperm, hshared, -⟩
    · rw [System.step, hsame] at heffects
      exact absurd heffects hself
    · refine ⟨t, List.mem_of_getElem? hi, ?_⟩
      rw [System.step, hshared] at heffects
      rcases (t.moves_segment idleAfter ok s.shared).effects with ⟨-, heq⟩ | ⟨timeline, heq⟩ | ⟨hstop, -⟩
      · exact absurd (heq.symm.trans heffects) hself
      · rw [heq] at heffects
        exact absurd (List.append_cancel_left heffects) (by simp)
      · exact hstop
  | _ => exact absurd heffects hself

/-- **No stop under a client.** In every interleaving of clients, reaper and warmer passes and
control requests other than hibernate and pin that stays outside the two gaps, whenever a stop
takes effect there is no client whose `ensure_awake` has returned and whose connection has not
ended. -/
theorem stops_only_without_clients (idleAfter : Nat) {w : World} (hw : w.tenant.activeConns = 0)
    {as : List Action} (hcontrol : ∀ a ∈ as, a.isControlStop = false)
    (hgaps : Along (fun pre a => outsideGaps idleAfter (System.after idleAfter w pre) a = true) as) :
    Along (fun pre a => stopTakesEffect idleAfter (System.after idleAfter w pre) a = true →
      ∀ c ∈ (System.after idleAfter w pre).tasks, c.isClient = false) as := by
  have hok : Along (fun pre a => a.isControlStop = false ∧
      outsideGaps idleAfter (System.after idleAfter w pre) a = true) as :=
    fun pre a post hsplit => ⟨hcontrol a (by rw [hsplit]; simp), hgaps pre a post hsplit⟩
  intro pre a post hsplit hstop
  rw [hsplit] at hok
  have hinv : ClientInv (System.after idleAfter w pre) :=
    run_invariant (I := fun _ s => ClientInv s) ⟨hw, by simp⟩
      (fun _ _ _ hstep h => h.step hstep.1 hstep.2) pre hok.of_append
  obtain ⟨t, ht, hstopping⟩ := stopping_of_stopTakesEffect hstop
  exact hinv.apart t ht hstopping

/-- A client is served to its end, and the reaper stops compute when it has been idle. -/
def servedThenReaped : List Action :=
  [.connect, .resume 0 true, .resume 0 true, .resume 0 true, .resume 0 true, .resume 0 true,
    .resume 0 true, .tick 60, .reap, .resume 0 true, .resume 0 true, .resume 0 true]

theorem stops_only_without_clients_sample :
    let w := World.registered "db:5432" none 0
    (System.after 60 w servedThenReaped).shared.effects = [.start none, .stop] ∧
      Along (fun pre a => stopTakesEffect 60 (System.after 60 w pre) a = true →
        ∀ c ∈ (System.after 60 w pre).tasks, c.isClient = false) servedThenReaped :=
  ⟨by decide, stops_only_without_clients 60 rfl (by decide) (by decide)⟩

/-- The first client of an idle tenant: `ensure_awake` sets the flag but does not touch the
clock, so a reaper pass that comes before the connection is counted stops compute under it. The
second run is a client that arrives while the reaper's stop is in flight and still finds compute
up. -/
theorem stop_under_client :
    let w := World.registered "db:5432" none 0
    let cold : List Action := [.tick 100, .connect, .resume 0 true, .resume 0 true, .resume 0 true,
      .resume 0 true, .reap, .resume 1 true]
    let late : List Action := [.setCompute true, .resume 0 true, .resume 0 true, .tick 100, .reap,
      .resume 0 true, .connect, .resume 1 true, .resume 1 true]
    (Task.connecting ∈ (System.after 60 w cold).tasks ∧
        stopTakesEffect 60 (System.after 60 w cold) (.resume 1 true) = true) ∧
      Task.connecting ∈ (System.after 60 w late).tasks ∧
        stopTakesEffect 60 (System.after 60 w late) (.resume 0 true) = true := by
  decide

end AethelDB.Proxy
