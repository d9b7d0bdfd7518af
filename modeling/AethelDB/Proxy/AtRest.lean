import AethelDB.Proxy.Lifecycle

/-!
# A tenant at rest

What the running flag and the pin say about compute when nothing is in flight that calls the
activator or writes the flag.

* The flag is set exactly if the last activator call was a start (`running_iff_lastStart`).
* A tenant that is marked running serves its pinned timeline (`running_on_pinned`).

Starts and stops only agree with the flag if they do not overtake each other. Both results
therefore ask that a stop is never in flight together with anything else that is busy (`Alone`),
from which the flag is right wherever it is set (`Sound`). The counterexamples next to the
theorems are interleavings without it, and the two failures that leave compute up with the flag
cleared.
-/

namespace AethelDB.Proxy

open AethelDB.Lib

/-! ## Stops on their own -/

namespace Task

/-- The task will still call the activator or write the flag for a call it made. -/
def isBusy : Task → Bool
  | .starting _ _ => true
  | .started _ => true
  | .probing => true
  | .ready => true
  | .stopping _ => true
  | .stopped _ => true
  | _ => false

/-- A stop, before or after it took effect. -/
def isStop : Task → Bool
  | .stopping _ => true
  | .stopped _ => true
  | _ => false

/-- A stop that took effect, with the flag still to be cleared. -/
def isStopped : Task → Bool
  | .stopped _ => true
  | _ => false

/-- A start that took effect, or compute found up, with the flag still to be set. -/
def isRising : Task → Bool
  | .started _ => true
  | .probing => true
  | .ready => true
  | _ => false

/-- One of the two is a stop and the other one is in its way. -/
def conflicts (a b : Task) : Bool := a.isStop && b.isBusy || b.isStop && a.isBusy

theorem conflicts_comm (a b : Task) : a.conflicts b = b.conflicts a := Bool.or_comm _ _

theorem isStop_of_isStopped {t : Task} (h : t.isStopped = true) : t.isStop = true := by
  cases t with
  | stopped who => rfl
  | _ => simp [isStopped] at h

theorem isBusy_of_isStop {t : Task} (h : t.isStop = true) : t.isBusy = true := by
  cases t with
  | stopped who => rfl
  | stopping who => rfl
  | _ => simp [isStop] at h

theorem isBusy_of_isRising {t : Task} (h : t.isRising = true) : t.isBusy = true := by
  cases t with
  | started who => rfl
  | probing => rfl
  | ready => rfl
  | _ => simp [isRising] at h

theorem conflicts_of_isStop {a b : Task} (ha : a.isStop = true) (hb : b.isBusy = true) :
    a.conflicts b = true := by
  simp [conflicts, ha, hb]

end Task

/-- A stop is in flight only while nothing else is busy. -/
def Alone (s : System) : Prop := s.tasks.Pairwise fun a b => a.conflicts b = false

instance (s : System) : Decidable (Alone s) :=
  inferInstanceAs (Decidable (s.tasks.Pairwise fun a b => a.conflicts b = false))

/-- Nothing that is busy is in flight. -/
def AtRest (s : System) : Prop := ∀ t ∈ s.tasks, t.isBusy = false

instance (s : System) : Decidable (AtRest s) :=
  inferInstanceAs (Decidable (∀ t ∈ s.tasks, t.isBusy = false))

theorem Alone.nil (w : World) : Alone ⟨w, []⟩ := List.Pairwise.nil

theorem Alone.perm {w w' : World} {ts ts' : List Task} (h : Alone ⟨w, ts⟩) (hp : ts.Perm ts') :
    Alone ⟨w', ts'⟩ :=
  (hp.pairwise_iff fun {a b} hab => (b.conflicts_comm a).trans hab).mp h

/-- Beside something busy there is no stop. -/
theorem Alone.no_stop {w : World} {n : Task} {rest : List Task} (h : Alone ⟨w, n :: rest⟩)
    (hn : n.isBusy = true) : ∀ t ∈ rest, t.isStop = false := by
  intro t ht
  have hconflict := (List.pairwise_cons.mp h).1 t ht
  rw [n.conflicts_comm] at hconflict
  by_contra hstop
  rw [Task.conflicts_of_isStop (by simpa using hstop) hn] at hconflict
  simp at hconflict

theorem Alone.no_busy {w : World} {n : Task} {rest : List Task} (h : Alone ⟨w, n :: rest⟩)
    (hn : n.isStop = true) : ∀ t ∈ rest, t.isBusy = false := by
  intro t ht
  have hconflict := (List.pairwise_cons.mp h).1 t ht
  by_contra hbusy
  rw [Task.conflicts_of_isStop hn (by simpa using hbusy)] at hconflict
  simp at hconflict

/-- The flag and what is in flight agree with compute: the flag is only set while compute is up
or a stop is about to clear it, whoever is about to set it does so rightly, and whoever is about
to clear it as well. -/
structure Sound (s : System) : Prop where
  running_up : s.shared.tenant.running = true →
    s.shared.compute.isSome = true ∨ ∃ t ∈ s.tasks, t.isStopped = true
  rising_up : ∀ t ∈ s.tasks, t.isRising = true → s.shared.compute.isSome = true
  stopped_down : ∀ t ∈ s.tasks, t.isStopped = true → s.shared.compute = none

namespace Sound

variable {idleAfter : Nat} {ok : Bool} {w : World} {t : Task} {ts ts' rest : List Task}

theorem of_cold (hw : w.Cold) : Sound ⟨w, []⟩ :=
  ⟨fun hrunning => absurd hrunning (by simp [hw.running]), nofun, nofun⟩

/-- With nothing in flight to clear it, the flag is right when it is set. -/
theorem up_of_rest {s : System} (h : Sound s) (hrest : AtRest s)
    (hrunning : s.shared.tenant.running = true) : s.shared.compute.isSome = true := by
  rcases h.running_up hrunning with hup | ⟨t, ht, hstopped⟩
  · exact hup
  · exact absurd (Task.isBusy_of_isStop (Task.isStop_of_isStopped hstopped)) (by simp [hrest t ht])

theorem perm (h : Sound ⟨w, ts⟩) (hp : ts.Perm ts') : Sound ⟨w, ts'⟩ where
  running_up hrunning := by
    rcases h.running_up hrunning with hup | ⟨t, ht, hstopped⟩
    · exact Or.inl hup
    · exact Or.inr ⟨t, hp.mem_iff.mp ht, hstopped⟩
  rising_up t ht := h.rising_up t (hp.mem_iff.mpr ht)
  stopped_down t ht := h.stopped_down t (hp.mem_iff.mpr ht)

/-- Only the flag and compute matter. -/
theorem congr {w' : World} (h : Sound ⟨w, ts⟩) (hrunning : w'.tenant.running = w.tenant.running)
    (hcompute : w'.compute = w.compute) : Sound ⟨w', ts⟩ where
  running_up hr := by
    have hup := h.running_up (hrunning.symm.trans hr)
    rwa [← hcompute] at hup
  rising_up t ht hr := by
    rw [hcompute]
    exact h.rising_up t ht hr
  stopped_down t ht hs := by
    rw [hcompute]
    exact h.stopped_down t ht hs

/-- A task goes that is not about to clear the flag. -/
theorem drop (h : Sound ⟨w, t :: rest⟩) (ht : t.isStopped = false) : Sound ⟨w, rest⟩ where
  running_up hrunning := by
    rcases h.running_up hrunning with hup | ⟨t', ht', hstopped⟩
    · exact Or.inl hup
    · rcases List.mem_cons.mp ht' with rfl | ht'
      · simp [ht] at hstopped
      · exact Or.inr ⟨t', ht', hstopped⟩
  rising_up t' ht' := h.rising_up t' (List.mem_cons_of_mem _ ht')
  stopped_down t' ht' := h.stopped_down t' (List.mem_cons_of_mem _ ht')

theorem add (h : Sound ⟨w, rest⟩) {n : Task} (hrising : n.isRising = true → w.compute.isSome = true)
    (hstopped : n.isStopped = true → w.compute = none) : Sound ⟨w, n :: rest⟩ where
  running_up hrunning := by
    rcases h.running_up hrunning with hup | ⟨t', ht', hs⟩
    · exact Or.inl hup
    · exact Or.inr ⟨t', List.mem_cons_of_mem _ ht', hs⟩
  rising_up t' ht' hr := by
    rcases List.mem_cons.mp ht' with rfl | ht'
    · exact hrising hr
    · exact h.rising_up t' ht' hr
  stopped_down t' ht' hs := by
    rcases List.mem_cons.mp ht' with rfl | ht'
    · exact hstopped hs
    · exact h.stopped_down t' ht' hs

theorem setRunning_true (h : Sound ⟨w, rest⟩) (hup : w.compute.isSome = true) :
    Sound ⟨w.setRunning true, rest⟩ :=
  ⟨fun _ => Or.inl hup, h.rising_up, h.stopped_down⟩

theorem setRunning_false (h : Sound ⟨w, t :: rest⟩) : Sound ⟨w.setRunning false, rest⟩ :=
  ⟨fun hrunning => absurd hrunning (by simp [World.setRunning, TenantState.setRunning]),
    fun t' ht' => h.rising_up t' (List.mem_cons_of_mem _ ht'),
    fun t' ht' => h.stopped_down t' (List.mem_cons_of_mem _ ht')⟩

theorem start (hrest : ∀ t' ∈ rest, t'.isStop = false) (who : Starter) (timeline : Option Timeline) :
    Sound ⟨w.start timeline, .started who :: rest⟩ := by
  have hup : (w.start timeline).compute.isSome = true := by
    cases h : w.compute <;> simp [World.start, h]
  refine ⟨fun _ => Or.inl hup, fun _ _ _ => hup, ?_⟩
  intro t' ht' hstopped
  rcases List.mem_cons.mp ht' with rfl | ht'
  · simp [Task.isStopped] at hstopped
  · exact absurd (Task.isStop_of_isStopped hstopped) (by simp [hrest t' ht'])

theorem stop (hrest : ∀ t' ∈ rest, t'.isBusy = false) (who : Stopper) :
    Sound ⟨w.stop, .stopped who :: rest⟩ := by
  refine ⟨fun _ => Or.inr ⟨_, List.mem_cons_self, rfl⟩, ?_, fun _ _ _ => rfl⟩
  intro t' ht' hrising
  rcases List.mem_cons.mp ht' with rfl | ht'
  · simp [Task.isRising] at hrising
  · exact absurd (Task.isBusy_of_isRising hrising) (by simp [hrest t' ht'])

theorem begin {n : Task} (h : Sound ⟨w, rest⟩) (hn : Fresh w n) (halone : Alone ⟨w, n :: rest⟩) :
    Sound ⟨w, n :: rest⟩ := by
  cases hn with
  | probing hrunning =>
    refine h.add (fun _ => ?_) fun hs => absurd hs (by simp [Task.isStopped])
    -- the flag was set, and no stop is there to clear it
    rcases h.running_up hrunning with hup | ⟨t', ht', hstopped⟩
    · exact hup
    · exact absurd (Task.isStop_of_isStopped hstopped) (by simp [halone.no_stop rfl t' ht'])
  | _ =>
    exact h.add (fun hr => absurd hr (by simp [Task.isRising]))
      fun hs => absurd hs (by simp [Task.isStopped])

theorem beginAll {new : List Task} (h : Sound ⟨w, ts⟩) (hnew : ∀ t ∈ new, Fresh w t)
    (halone : Alone ⟨w, new ++ ts⟩) : Sound ⟨w, new ++ ts⟩ := by
  induction new with
  | nil => exact h
  | cons n new ih =>
    have htail := ih (fun t ht => hnew t (List.mem_cons_of_mem _ ht)) (List.pairwise_cons.mp halone).2
    exact htail.begin (hnew n List.mem_cons_self) halone

theorem moves {w' : World} {new : List Task} (h : Sound ⟨w, t :: rest⟩)
    (halone : Alone ⟨w, t :: rest⟩) (hm : t.Moves idleAfter w ok w' new)
    (halone' : Alone ⟨w', new ++ rest⟩) : Sound ⟨w', new ++ rest⟩ := by
  have hup := h.rising_up t List.mem_cons_self
  cases hm with
  | quit ht => exact h.drop (by cases ht <;> rfl)
  | climb hc =>
    refine (h.drop (by cases hc <;> rfl)).add (fun _ => hup (by cases hc <;> rfl)) fun hs => ?_
    cases hc <;> exact absurd hs Bool.false_ne_true
  | awaken => exact (h.drop rfl).begin .ensureAwake halone'
  | warm => exact (h.drop rfl).begin (.starting .warmer) halone'
  | reap => exact (h.drop rfl).begin (.stopping .reaper) halone'
  | start => exact start (halone'.no_stop rfl) _ _
  | announce => exact ((h.drop rfl).setRunning_true (hup rfl)).congr rfl rfl
  | timeout => exact h.drop rfl
  | awake =>
    exact ((h.drop rfl).setRunning_true (hup rfl)).add (fun hr => absurd hr Bool.false_ne_true)
      fun hs => absurd hs Bool.false_ne_true
  | connected =>
    have hcounted : Sound ⟨{ w with tenant := w.tenant.connectionStarted w.now }, rest⟩ :=
      (h.drop rfl).congr rfl rfl
    exact hcounted.add (n := .splicing) (fun hr => absurd hr Bool.false_ne_true)
      fun hs => absurd hs Bool.false_ne_true
  | finish => exact (h.drop rfl).congr rfl rfl
  | stop => exact stop (halone.no_busy rfl) _
  | ignored => exact h.setRunning_false
  | clear => exact h.setRunning_false

theorem step {s : System} {a : Action} (h : Sound s) (halone : Alone s)
    (halone' : Alone (s.step idleAfter a)) : Sound (s.step idleAfter a) := by
  rcases s.step_cases idleAfter a with ⟨i, ok, rfl⟩ | ⟨w', new, hstep, harrival⟩
  · refine Pool.resume_rule (I := fun s => Alone s → Sound s) ?_ (fun _ => h) ?_ halone'
    · exact fun w ts ts' hp hi ha => (hi (ha.perm hp.symm)).perm hp
    · exact fun t rest _ hp ha => (h.perm hp).moves (halone.perm hp) (t.moves_segment ..) ha
  · rw [hstep] at halone' ⊢
    have hsame : Sound ⟨w', s.tasks⟩ := h.congr harrival.running harrival.compute
    exact (hsame.beginAll harrival.fresh (halone'.perm List.perm_append_comm)).perm
      List.perm_append_comm

theorem after (hw : w.Cold) {as : List Action}
    (halone : Along (fun pre a => Alone ((System.after idleAfter w pre).step idleAfter a)) as) :
    Alone (System.after idleAfter w as) ∧ Sound (System.after idleAfter w as) :=
  run_invariant (I := fun _ s => Alone s ∧ Sound s) ⟨.nil w, of_cold hw⟩
    (fun _ _ _ hstep h => ⟨hstep, h.2.step h.1 hstep⟩) as halone

end Sound

/-! ## The flag at rest -/

/-- Compute that is up has the flag set, or somebody about to set it. -/
def Announced (s : System) : Prop :=
  s.shared.compute.isSome = true →
    s.shared.tenant.running = true ∨ ∃ t ∈ s.tasks, t.isRising = true

/-- Neither of the two failures that leave compute up without the flag: a probe that times out is
not the last task to announce compute, and the stop of a `set_pin` fails only when compute is
down. -/
def keepsAnnounced (s : System) : Action → Bool
  | .resume i false =>
    match s.tasks[i]? with
    | some .probing => s.shared.tenant.running || 1 < s.tasks.countP Task.isRising
    | some (.stopping .setPin) => s.shared.compute.isNone
    | _ => true
  | _ => true

namespace Announced

variable {idleAfter : Nat} {ok : Bool} {w w' : World} {t : Task} {ts ts' rest : List Task}

theorem of_cold (hw : w.Cold) : Announced ⟨w, []⟩ :=
  fun hup => absurd hup (by simp [hw.compute])

theorem perm (h : Announced ⟨w, ts⟩) (hp : ts.Perm ts') : Announced ⟨w, ts'⟩ := by
  intro hup
  rcases h hup with hrunning | ⟨t, ht, hrising⟩
  · exact Or.inl hrunning
  · exact Or.inr ⟨t, hp.mem_iff.mp ht, hrising⟩

/-- Tasks come, and none goes that is about to set the flag. -/
theorem exchange (gone : List Task) {new : List Task} (h : Announced ⟨w, gone ++ rest⟩)
    (hrunning : w'.tenant.running = w.tenant.running) (hcompute : w'.compute = w.compute)
    (hgone : ∀ t ∈ gone, t.isRising = false) : Announced ⟨w', new ++ rest⟩ := by
  intro hup
  rw [hcompute] at hup
  rcases h hup with hr | ⟨t, ht, hrising⟩
  · exact Or.inl (hrunning.trans hr)
  · rcases List.mem_append.mp ht with ht | ht
    · simp [hgone t ht] at hrising
    · exact Or.inr ⟨t, List.mem_append_right _ ht, hrising⟩

/-- A task goes on, or ends, that is not about to set the flag. -/
theorem next {new : List Task} (h : Announced ⟨w, t :: rest⟩) (ht : t.isRising = false)
    (hrunning : w'.tenant.running = w.tenant.running) (hcompute : w'.compute = w.compute) :
    Announced ⟨w', new ++ rest⟩ := by
  refine exchange [t] h hrunning hcompute fun t' ht' => ?_
  rw [List.mem_singleton.mp ht']
  exact ht

theorem moves {new : List Task} (h : Announced ⟨w, t :: rest⟩) (hsound : Sound ⟨w, t :: rest⟩)
    (hm : t.Moves idleAfter w ok w' new)
    (hprobe : t = .probing → ok = false → w.tenant.running = true ∨ 0 < rest.countP Task.isRising)
    (hpin : t = .stopping .setPin → ok = false → w.compute = none) :
    Announced ⟨w', new ++ rest⟩ := by
  cases hm with
  | quit ht => exact h.next (by cases ht <;> rfl) rfl rfl
  | climb hc => exact fun _ => Or.inr ⟨_, List.mem_cons_self, by cases hc <;> rfl⟩
  | start => exact fun _ => Or.inr ⟨_, List.mem_cons_self, rfl⟩
  | announce => exact fun _ => Or.inl rfl
  | timeout hok =>
    intro _
    rcases hprobe rfl hok with hrunning | hother
    · exact Or.inl hrunning
    · exact Or.inr (List.countP_pos_iff.mp hother)
  | awake => exact fun _ => Or.inl rfl
  | stop => exact fun hup => absurd hup (by simp [World.stop])
  | ignored hok => exact fun hup => absurd hup (by simp [World.setRunning, hpin rfl hok])
  | clear =>
    have hdown : w.compute = none := hsound.stopped_down _ List.mem_cons_self rfl
    exact fun hup => absurd hup (by simp [World.setRunning, hdown])
  | _ => exact h.next rfl rfl rfl

theorem step {s : System} {a : Action} (h : Announced s) (hsound : Sound s)
    (hkeeps : keepsAnnounced s a = true) : Announced (s.step idleAfter a) := by
  rcases s.step_cases idleAfter a with ⟨i, ok, rfl⟩ | ⟨w', new, hstep, harrival⟩
  · refine Pool.resume_rule (fun _ _ _ hp hi => hi.perm hp) h fun t rest hi hp => ?_
    refine (h.perm hp).moves (hsound.perm hp) (t.moves_segment ..) ?_ ?_
    · rintro rfl rfl
      simp only [keepsAnnounced, hi, hp.countP_eq, Bool.or_eq_true, decide_eq_true_eq] at hkeeps
      rw [List.countP_cons_of_pos rfl] at hkeeps
      exact hkeeps.imp_right Nat.lt_of_succ_lt_succ
    · rintro rfl rfl
      simpa only [keepsAnnounced, hi, Option.isNone_iff_eq_none] using hkeeps
  · rw [hstep]
    exact (exchange [] h harrival.running harrival.compute
      (by simp)).perm List.perm_append_comm

theorem after (hw : w.Cold) {as : List Action}
    (halone : Along (fun pre a => Alone ((System.after idleAfter w pre).step idleAfter a)) as)
    (hkeeps : Along (fun pre a => keepsAnnounced (System.after idleAfter w pre) a = true) as) :
    Announced (System.after idleAfter w as) := by
  have hok : Along (fun pre a => Sound (System.after idleAfter w pre) ∧
      keepsAnnounced (System.after idleAfter w pre) a = true) as := by
    rintro pre a post rfl
    exact ⟨(Sound.after hw halone.of_append).2, hkeeps pre a post rfl⟩
  exact run_invariant (I := fun _ s => Announced s) (of_cold hw)
    (fun _ _ _ hstep h => h.step hstep.1 hstep.2) as hok

end Announced

/-- The last activator call that took effect was a start. -/
def lastIsStart (effects : List Effect) : Bool :=
  match effects.getLast? with
  | some (.start _) => true
  | _ => false

/-- Compute is up exactly if the last activator call that took effect was a start. -/
def World.Logged (w : World) : Prop := w.compute.isSome = lastIsStart w.effects

namespace World.Logged

variable {w : World}

theorem of_cold (hw : w.Cold) : w.Logged := by
  rw [World.Logged, hw.compute, hw.effects]
  rfl

theorem start (w : World) (timeline : Option Timeline) : (w.start timeline).Logged := by
  unfold World.Logged World.start lastIsStart
  cases w.compute <;> simp

theorem stop (w : World) : w.stop.Logged := by simp [World.Logged, World.stop, lastIsStart]

theorem segment (h : w.Logged) (idleAfter : Nat) (ok : Bool) (t : Task) :
    (t.segment idleAfter ok w).1.Logged := by
  rcases (t.moves_segment idleAfter ok w).effects with ⟨hcompute, heffects⟩ | ⟨timeline, heq⟩ | ⟨-, heq⟩
  · rwa [World.Logged, hcompute, heffects]
  · rw [heq]
    exact start w timeline
  · rw [heq]
    exact stop w

theorem step {idleAfter : Nat} {s : System} {a : Action} (h : s.shared.Logged) :
    (s.step idleAfter a).shared.Logged := by
  rcases s.step_cases idleAfter a with ⟨i, ok, rfl⟩ | ⟨w', new, hstep, harrival⟩
  · exact Pool.resume_rule (I := fun p : System => p.shared.Logged) (fun _ _ _ _ hi => hi) h
      fun t _ _ _ => h.segment idleAfter ok t
  · rw [hstep]
    show w'.Logged
    rwa [World.Logged, harrival.compute, harrival.effects]

end World.Logged

/-- **The flag at rest.** In every interleaving of clients, reaper and warmer passes and control
requests in which stops are alone and compute stays announced, whenever nothing busy is in flight
the flag is set exactly if the last activator call that took effect was a start. -/
theorem running_iff_lastStart (idleAfter : Nat) {w : World} (hw : w.Cold) {as : List Action}
    (halone : Along (fun pre a => Alone ((System.after idleAfter w pre).step idleAfter a)) as)
    (hkeeps : Along (fun pre a => keepsAnnounced (System.after idleAfter w pre) a = true) as)
    (hrest : AtRest (System.after idleAfter w as)) :
    (System.after idleAfter w as).shared.tenant.running = true ↔
      lastIsStart (System.after idleAfter w as).shared.effects = true := by
  have hlogged : (System.after idleAfter w as).shared.Logged :=
    run_invariant_always (I := fun s : System => s.shared.Logged) (.of_cold hw)
      (fun _ _ h => h.step) as
  have hannounced := Announced.after hw halone hkeeps
  rw [← hlogged]
  constructor
  · exact (Sound.after hw halone).2.up_of_rest hrest
  · intro hup
    rcases hannounced hup with hrunning | ⟨t, ht, hrising⟩
    · exact hrunning
    · exact absurd (Task.isBusy_of_isRising hrising) (by simp [hrest t ht])

/-- The tenant is started, hibernated and started again by the control API, and a probe of a
client that finds it up times out. -/
def startedTwice : List Action :=
  [.setCompute true, .resume 0 true, .resume 0 true, .setCompute false, .resume 0 true,
    .resume 0 true, .setCompute true, .resume 0 true, .resume 0 true, .connect, .resume 0 false]

theorem running_iff_lastStart_sample :
    let s := System.after 60 (.registered "db:5432" none 0) startedTwice
    s.shared.effects = [.start none, .stop, .start none] ∧
      (s.shared.tenant.running = true ↔ lastIsStart s.shared.effects = true) :=
  ⟨by decide, running_iff_lastStart 60 (.registered _ _ _) (by decide +kernel) (by decide +kernel)
    (by decide)⟩

/-- Three ways in which the flag is wrong with nothing in flight. The start of a client took effect
but its probe timed out; a `set_pin` whose stop failed cleared the flag all the same; and a start
request came back between a stop's effect and its clearing of the flag. -/
theorem running_wrong_at_rest :
    let w := World.registered "db:5432" none 0
    let up : List Action := [.setCompute true, .resume 0 true, .resume 0 true]
    let wrong (as : List Action) := (System.after 60 w as).tasks = [] ∧
      (System.after 60 w as).shared.tenant.running = false ∧
      lastIsStart (System.after 60 w as).shared.effects = true
    wrong [.connect, .resume 0 true, .resume 0 true, .resume 0 false] ∧
      wrong (up ++ [.setPin (some "pitr"), .resume 0 false]) ∧
      wrong (up ++ [.setCompute false, .resume 0 true, .setCompute true, .resume 1 true,
        .resume 1 true, .resume 0 true]) := by
  decide

/-! ## The pinned timeline at rest -/

/-- Compute that is up serves the pinned timeline, or is being stopped, and a start in flight will
bring it up on that timeline. -/
structure OnPin (s : System) : Prop where
  compute : ∀ timeline, s.shared.compute = some timeline →
    timeline = s.shared.tenant.pinnedTimeline ∨ ∃ who, .stopping who ∈ s.tasks
  starting : ∀ who timeline, .starting who timeline ∈ s.tasks →
    timeline = s.shared.tenant.pinnedTimeline

/-- Calls of the activator succeed. -/
def activatorSucceeds (s : System) : Action → Bool
  | .resume i ok =>
    match s.tasks[i]? with
    | some (.starting _ _) => ok
    | some (.stopping _) => ok
    | _ => true
  | _ => true

namespace OnPin

variable {idleAfter : Nat} {ok : Bool} {w w' : World} {t : Task} {ts ts' rest : List Task}

theorem of_cold (hw : w.Cold) : OnPin ⟨w, []⟩ :=
  ⟨fun _ hup => absurd (hw.compute.symm.trans hup) (by simp), nofun⟩

theorem perm (h : OnPin ⟨w, ts⟩) (hp : ts.Perm ts') : OnPin ⟨w, ts'⟩ where
  compute timeline hup := by
    rcases h.compute timeline hup with heq | ⟨who, hwho⟩
    · exact Or.inl heq
    · exact Or.inr ⟨who, hp.mem_iff.mp hwho⟩
  starting who timeline hmem := h.starting who timeline (hp.mem_iff.mpr hmem)

/-- Only the pin and compute matter. -/
theorem congr (h : OnPin ⟨w, ts⟩) (hpin : w'.tenant.pinnedTimeline = w.tenant.pinnedTimeline)
    (hcompute : w'.compute = w.compute) : OnPin ⟨w', ts⟩ where
  compute timeline hup := by
    rw [hpin]
    exact h.compute timeline (hcompute.symm.trans hup)
  starting who timeline hmem := (h.starting who timeline hmem).trans hpin.symm

/-- A task goes that is not a stop. -/
theorem drop (h : OnPin ⟨w, t :: rest⟩) (ht : t.isStopping = false) : OnPin ⟨w, rest⟩ where
  compute timeline hup := by
    rcases h.compute timeline hup with heq | ⟨who, hwho⟩
    · exact Or.inl heq
    · rcases List.mem_cons.mp hwho with rfl | hwho
      · simp [Task.isStopping] at ht
      · exact Or.inr ⟨who, hwho⟩
  starting who timeline hmem := h.starting who timeline (List.mem_cons_of_mem _ hmem)

theorem add {n : Task} (h : OnPin ⟨w, rest⟩)
    (hn : ∀ who timeline, n = .starting who timeline → timeline = w.tenant.pinnedTimeline) :
    OnPin ⟨w, n :: rest⟩ where
  compute timeline hup := by
    rcases h.compute timeline hup with heq | ⟨who, hwho⟩
    · exact Or.inl heq
    · exact Or.inr ⟨who, List.mem_cons_of_mem _ hwho⟩
  starting who timeline hmem := by
    rcases List.mem_cons.mp hmem with heq | hmem
    · exact hn who timeline heq.symm
    · exact h.starting who timeline hmem

theorem begin {n : Task} (h : OnPin ⟨w, rest⟩) (hn : Fresh w n) : OnPin ⟨w, n :: rest⟩ := by
  refine h.add ?_
  rintro who timeline rfl
  cases hn
  rfl

/-- The starts in flight stay as they are when a task goes on that is not one. -/
theorem starting_next {n : Task} (h : OnPin ⟨w, t :: rest⟩)
    (hn : ∀ who timeline, n ≠ .starting who timeline) {who : Starter} {timeline : Option Timeline}
    (hmem : .starting who timeline ∈ n :: rest) : timeline = w.tenant.pinnedTimeline := by
  rcases List.mem_cons.mp hmem with heq | hmem
  · exact absurd heq.symm (hn who timeline)
  · exact h.starting who timeline (List.mem_cons_of_mem _ hmem)

/-- A start takes effect; if it finds compute up, that is on the pinned timeline, too. -/
theorem start {who : Starter} {timeline : Option Timeline}
    (h : OnPin ⟨w, .starting who timeline :: rest⟩)
    (halone : Alone ⟨w, .starting who timeline :: rest⟩) :
    OnPin ⟨w.start timeline, .started who :: rest⟩ where
  compute timeline' hup := by
    refine Or.inl ?_
    have hpin := h.starting who timeline List.mem_cons_self
    cases hcompute : w.compute with
    | none =>
      have hnew : timeline = timeline' := by simpa [World.start, hcompute] using hup
      exact hnew.symm.trans hpin
    | some old =>
      have hold : old = timeline' := by simpa [World.start, hcompute] using hup
      rcases h.compute old hcompute with heq | ⟨who', hstop⟩
      · exact hold.symm.trans heq
      · rcases List.mem_cons.mp hstop with heq | hstop
        · simp at heq
        · exact absurd (halone.no_stop rfl _ hstop) (by simp [Task.isStop])
  starting who' timeline' hmem := h.starting_next (n := .started who) nofun hmem

/-- Tasks begin; a new pin comes with a stop, beside which no start is in flight. -/
theorem arrival {new : List Task} (h : OnPin ⟨w, ts⟩) (ha : Arrival w w' new)
    (halone : Alone ⟨w', new ++ ts⟩) : OnPin ⟨w', new ++ ts⟩ where
  compute timeline hup := by
    rcases ha.pinnedTimeline with hpin | ⟨who, hwho⟩
    · rw [ha.compute] at hup
      rcases h.compute timeline hup with heq | ⟨who, hwho⟩
      · exact Or.inl (heq.trans hpin.symm)
      · exact Or.inr ⟨who, List.mem_append_right _ hwho⟩
    · exact Or.inr ⟨who, List.mem_append_left _ hwho⟩
  starting who timeline hmem := by
    rcases List.mem_append.mp hmem with hmem | hmem
    · cases ha.fresh _ hmem
      rfl
    · rcases ha.pinnedTimeline with hpin | ⟨who', hwho'⟩
      · exact (h.starting who timeline hmem).trans hpin.symm
      · have hconflict := (List.pairwise_append.mp halone).2.2 _ hwho' _ hmem
        simp [Task.conflicts, Task.isStop, Task.isBusy] at hconflict

theorem moves {new : List Task} (h : OnPin ⟨w, t :: rest⟩) (halone : Alone ⟨w, t :: rest⟩)
    (hm : t.Moves idleAfter w ok w' new) (hok : t.isStopping = true → ok = true) :
    OnPin ⟨w', new ++ rest⟩ := by
  cases hm with
  | quit ht =>
    refine h.drop ?_
    cases ht with
    | stopping hbad _ => exact absurd (hok rfl) (by simp [hbad])
    | _ => rfl
  | climb hc =>
    refine (h.drop (by cases hc <;> rfl)).add ?_
    cases hc <;> nofun
  | awaken => exact (h.drop rfl).begin .ensureAwake
  | warm => exact (h.drop rfl).begin (.starting .warmer)
  | reap => exact (h.drop rfl).begin (.stopping .reaper)
  | start => exact h.start halone
  | timeout => exact h.drop rfl
  | awake =>
    have hset : OnPin ⟨w.setRunning true, rest⟩ := (h.drop rfl).congr rfl rfl
    exact hset.add nofun
  | connected =>
    have hcounted : OnPin ⟨{ w with tenant := w.tenant.connectionStarted w.now }, rest⟩ :=
      (h.drop rfl).congr rfl rfl
    exact hcounted.add (n := .splicing) nofun
  | @stop who => exact ⟨nofun, fun _ _ hmem => h.starting_next (n := .stopped who) nofun hmem⟩
  | ignored hbad => exact absurd (hok rfl) (by simp [hbad])
  | _ => exact (h.drop rfl).congr rfl rfl

theorem step {s : System} {a : Action} (h : OnPin s) (halone : Alone s)
    (halone' : Alone (s.step idleAfter a)) (hok : activatorSucceeds s a = true) :
    OnPin (s.step idleAfter a) := by
  rcases s.step_cases idleAfter a with ⟨i, ok, rfl⟩ | ⟨w', new, hstep, harrival⟩
  · refine Pool.resume_rule (fun _ _ _ hp hi => hi.perm hp) h fun t rest hi hp => ?_
    refine (h.perm hp).moves (halone.perm hp) (t.moves_segment ..) fun hstopping => ?_
    simp only [activatorSucceeds, hi] at hok
    cases t with
    | stopping who => exact hok
    | _ => exact absurd hstopping Bool.false_ne_true
  · rw [hstep] at halone' ⊢
    exact (OnPin.arrival h harrival (halone'.perm List.perm_append_comm)).perm
      List.perm_append_comm

end OnPin

/-- **The pinned timeline at rest.** In every interleaving of clients, reaper and warmer passes and
control requests in which activator calls succeed and stops are alone, whenever nothing busy is
in flight and the tenant is marked running, compute is up with the pinned timeline. -/
theorem running_on_pinned (idleAfter : Nat) {w : World} (hw : w.Cold) {as : List Action}
    (hsucceeds : Along (fun pre a => activatorSucceeds (System.after idleAfter w pre) a = true) as)
    (halone : Along (fun pre a => Alone ((System.after idleAfter w pre).step idleAfter a)) as)
    (hrest : AtRest (System.after idleAfter w as))
    (hrunning : (System.after idleAfter w as).shared.tenant.running = true) :
    (System.after idleAfter w as).shared.compute =
      some (System.after idleAfter w as).shared.tenant.pinnedTimeline := by
  have hok : Along (fun pre a => Alone (System.after idleAfter w pre) ∧
      Alone ((System.after idleAfter w pre).step idleAfter a) ∧
      activatorSucceeds (System.after idleAfter w pre) a = true) as := by
    rintro pre a post rfl
    exact ⟨(Sound.after hw halone.of_append).1, halone pre a post rfl, hsucceeds pre a post rfl⟩
  have honPin : OnPin (System.after idleAfter w as) :=
    run_invariant (I := fun _ s => OnPin s) (.of_cold hw)
      (fun _ _ _ hstep h => h.step hstep.1 hstep.2.1 hstep.2.2) as hok
  have hup := (Sound.after hw halone).2.up_of_rest hrest hrunning
  obtain ⟨timeline, hcompute⟩ := Option.isSome_iff_exists.mp hup
  rcases honPin.compute timeline hcompute with rfl | ⟨who, hwho⟩
  · exact hcompute
  · exact absurd (hrest _ hwho) (by simp [Task.isBusy])

/-- A client runs on the live timeline and leaves, the tenant is pinned, and the next client wakes
compute on the pin. -/
def pinnedThenWoken : List Action :=
  [.connect, .resume 0 true, .resume 0 true, .resume 0 true, .resume 0 true, .resume 0 true,
    .resume 0 true, .setPin (some "pitr"), .resume 0 true, .resume 0 true, .connect,
    .resume 0 true, .resume 0 true, .resume 0 true, .resume 0 true]

theorem running_on_pinned_sample :
    (System.after 60 (.registered "db:5432" none 0) pinnedThenWoken).shared.compute =
      some (System.after 60 (.registered "db:5432" none 0)
        pinnedThenWoken).shared.tenant.pinnedTimeline :=
  running_on_pinned 60 (.registered _ _ _) (by decide +kernel) (by decide +kernel) (by decide)
    (by decide)

/-- A client reads the pin and calls the activator, the tenant is pinned and its compute stopped,
and only then the client's start takes effect: compute stays up on the live timeline. -/
theorem running_off_pinned :
    let as : List Action := [.connect, .setPin (some "pitr"), .resume 1 true, .resume 1 true,
      .resume 0 true, .resume 0 true, .resume 0 true, .resume 0 true, .resume 0 true, .resume 0 true]
    let w := World.registered "db:5432" none 0
    let s := System.after 60 w as
    Along (fun pre a => activatorSucceeds (System.after 60 w pre) a = true) as ∧
      s.tasks = [] ∧ s.shared.tenant.running = true ∧ s.shared.compute = some none ∧
      s.shared.tenant.pinnedTimeline = some "pitr" := by
  decide

end AethelDB.Proxy
