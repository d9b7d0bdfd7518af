import AethelDB.Lib.Pool
import AethelDB.Lib.Run
import AethelDB.Proxy.Cancel

/-!
# The cancel registry along splices

`splice_capturing_cancel_key` and `route_cancel` of `proxy/src/proxy.rs`, for any number of
concurrent splices. A splice runs two futures, client to backend and backend to client, and the
second one registers the session's key when it finds it. `try_join!` waits for both to finish, and
then the key is removed; at the first error of either it returns at once, and the key stays.

A key is in the registry exactly while its splice has not finished cleanly (`Tracked`). So the
registry maps exactly the keys of the live sessions if and only if no splice has failed after it
captured its key (`tracksLive_iff`), and once one has, cancel requests go to a backend that has no
such session (`cancel_after_failure`).
-/

namespace AethelDB.Proxy

open AethelDB.Lib

/-- Where the backend-to-client future stands. -/
inductive Pump where
  | reading
  | writing
  | done
deriving DecidableEq

/-- Whether a splice is running, or how it ended. -/
inductive SpliceStatus where
  | live
  | finished
  | failed
deriving DecidableEq

structure Splice where
  backendAddr : String
  scanner : KeyScanner
  captured : Option CancelKey
  /-- The client-to-backend future is done. -/
  c2bDone : Bool
  b2c : Pump
  status : SpliceStatus
deriving DecidableEq

inductive SpliceEvent where
  /-- `copy` from the client to the backend comes to the end of the stream. -/
  | c2bEof
  /-- It fails to read or to write. -/
  | c2bError
  /-- A read from the backend returns; no bytes are the end of the stream. -/
  | read (bytes : List UInt8)
  | readError
  /-- The chunk has been written to the client. -/
  | written
  | writeError
deriving DecidableEq

namespace Splice

def new (backendAddr : String) : Splice := ⟨backendAddr, .new, none, false, .reading, .live⟩

/-- Behind `try_join!`, once both futures are done. -/
def join (r : CancelRegistry) (sp : Splice) : CancelRegistry × Splice :=
  if sp.c2bDone ∧ sp.b2c = .done then
    (match sp.captured with
      | some key => r.remove key
      | none => r,
      { sp with status := .finished })
  else (r, sp)

/-- A chunk from the backend is scanned and is about to be written. -/
def scanChunk (r : CancelRegistry) (sp : Splice) (bytes : List UInt8) : CancelRegistry × Splice :=
  if sp.scanner.done then (r, { sp with b2c := .writing })
  else
    let (scanner, key) := sp.scanner.push bytes
    match key with
    | some key =>
      (r.insert key sp.backendAddr,
        { sp with scanner := scanner, captured := some key, b2c := .writing })
    | none => (r, { sp with scanner := scanner, b2c := .writing })

/-- What an event does. One that does not fit where the splice stands is ignored. -/
def step (r : CancelRegistry) (sp : Splice) (e : SpliceEvent) : CancelRegistry × Splice :=
  if sp.status = .live then
    match e with
    | .c2bEof => if sp.c2bDone then (r, sp) else join r { sp with c2bDone := true }
    | .c2bError => (r, if sp.c2bDone then sp else { sp with status := .failed })
    | .read bytes =>
      if sp.b2c = .reading then
        if bytes.isEmpty then join r { sp with b2c := .done } else scanChunk r sp bytes
      else (r, sp)
    | .readError => (r, if sp.b2c = .reading then { sp with status := .failed } else sp)
    | .written => (r, if sp.b2c = .writing then { sp with b2c := .reading } else sp)
    | .writeError => (r, if sp.b2c = .writing then { sp with status := .failed } else sp)
  else (r, sp)

/-- What an event can do to the registry and the splice. -/
inductive Change (r : CancelRegistry) (sp : Splice) : CancelRegistry → Splice → Prop
  /-- The registry stays; if the splice ends, then by an error. -/
  | quiet {sp' : Splice} (backendAddr : sp'.backendAddr = sp.backendAddr)
    (captured : sp'.captured = sp.captured)
    (done : sp.scanner.done = true → sp'.scanner.done = true)
    (status : sp'.status = .finished ↔ sp.status = .finished) : Change r sp r sp'
  | capture {sp' : Splice} {key : CancelKey} (backendAddr : sp'.backendAddr = sp.backendAddr)
    (captured : sp'.captured = some key) (scanning : sp.scanner.done = false)
    (done : sp'.scanner.done = true) (status : sp'.status ≠ .finished) :
    Change r sp (r.insert key sp.backendAddr) sp'
  /-- Both futures are done. -/
  | finish {sp' : Splice} (captured : sp'.captured = sp.captured)
    (done : sp'.scanner = sp.scanner) (status : sp'.status = .finished) :
    Change r sp (match sp.captured with | some key => r.remove key | none => r) sp'

theorem change_join {r : CancelRegistry} {sp sp' : Splice}
    (haddr : sp'.backendAddr = sp.backendAddr) (hcaptured : sp'.captured = sp.captured)
    (hscanner : sp'.scanner = sp.scanner) (hstatus : sp'.status = sp.status) :
    Change r sp (join r sp').1 (join r sp').2 := by
  unfold join
  split
  · rw [hcaptured]
    exact .finish rfl hscanner rfl
  · exact .quiet haddr hcaptured (fun hdone => by rwa [hscanner]) (by rw [hstatus])

theorem change_scanChunk {r : CancelRegistry} {sp : Splice} (hlive : sp.status = .live)
    (bytes : List UInt8) : Change r sp (scanChunk r sp bytes).1 (scanChunk r sp bytes).2 := by
  unfold scanChunk
  split
  · exact .quiet rfl rfl id Iff.rfl
  · next hdone =>
    cases hkey : (sp.scanner.push bytes).2 with
    | some key =>
      obtain ⟨hscanning, hdone'⟩ := KeyScanner.done_of_push hkey
      simp only [hkey]
      exact .capture rfl rfl hscanning hdone' (by simp [hlive])
    | none =>
      simp only [hkey]
      exact .quiet rfl rfl (fun h => absurd h hdone) Iff.rfl

theorem change_step (r : CancelRegistry) (sp : Splice) (e : SpliceEvent) :
    Change r sp (sp.step r e).1 (sp.step r e).2 := by
  have hsame : Change r sp r sp := .quiet rfl rfl id Iff.rfl
  unfold step
  split
  · next hlive =>
    have hfail : Change r sp r { sp with status := .failed } :=
      .quiet rfl rfl id (by simp [hlive])
    cases e with
    | c2bEof =>
      dsimp only
      split
      · exact hsame
      · exact change_join rfl rfl rfl rfl
    | c2bError =>
      dsimp only
      split
      · exact hsame
      · exact hfail
    | read bytes =>
      dsimp only
      split
      · split
        · exact change_join rfl rfl rfl rfl
        · exact change_scanChunk hlive bytes
      · exact hsame
    | readError =>
      dsimp only
      split
      · exact hfail
      · exact hsame
    | written =>
      dsimp only
      split
      · exact .quiet rfl rfl id Iff.rfl
      · exact hsame
    | writeError =>
      dsimp only
      split
      · exact hfail
      · exact hsame
  · exact hsame

end Splice

/-- The registry and all splices there have been. -/
structure Splices where
  cancels : CancelRegistry
  all : List Splice

inductive SpliceAction where
  | start (backendAddr : String)
  | event (i : Nat) (e : SpliceEvent)
deriving DecidableEq

namespace Splices

variable {key : CancelKey}

def new : Splices := ⟨.new, []⟩

def step (s : Splices) : SpliceAction → Splices
  | .start backendAddr => { s with all := s.all ++ [.new backendAddr] }
  | .event i e =>
    match s.all[i]? with
    | none => s
    | some sp => ⟨(sp.step s.cancels e).1, s.all.set i (sp.step s.cancels e).2⟩

def after (as : List SpliceAction) : Splices := run step new as

/-- `route_cancel`: where a `CancelRequest` goes, and the packet. -/
def routeCancel (s : Splices) (key : CancelKey) : Option (String × List UInt8) :=
  (s.cancels.lookup key).map fun addr => (addr, cancelRequestBytes key.1 key.2)

/-- The keys that have been captured. -/
def keys (s : Splices) : List CancelKey := s.all.filterMap Splice.captured

/-- The registry maps exactly the keys of the live sessions, each to its backend. -/
def TracksLive (s : Splices) : Prop :=
  ∀ key addr, s.cancels.lookup key = some addr ↔
    ∃ sp ∈ s.all, sp.status = .live ∧ sp.captured = some key ∧ sp.backendAddr = addr

/-- A `CancelRequest` is forwarded only to the backend of a live session with that key. -/
def ForwardsToLive (s : Splices) : Prop :=
  ∀ key addr packet, s.routeCancel key = some (addr, packet) →
    ∃ sp ∈ s.all, sp.status = .live ∧ sp.captured = some key ∧ sp.backendAddr = addr

/-- Some splice has failed after it captured its key. -/
def Leaks (s : Splices) : Prop := ∃ sp ∈ s.all, sp.status = .failed ∧ sp.captured.isSome = true

/-- A splice that has not finished cleanly has captured the key. -/
def Holds (all : List Splice) (key : CancelKey) (addr : String) : Prop :=
  ∃ sp ∈ all, sp.status ≠ .finished ∧ sp.captured = some key ∧ sp.backendAddr = addr

/-- A key is in the registry exactly while its splice has not finished cleanly. -/
def Tracked (s : Splices) : Prop :=
  ∀ key addr, s.cancels.lookup key = some addr ↔ Holds s.all key addr

/-- A splice that has captured its key looks for no other one. -/
def Scanned (s : Splices) : Prop :=
  ∀ sp ∈ s.all, sp.captured.isSome = true → sp.scanner.done = true

variable {r r' : CancelRegistry} {sp sp' : Splice} {all all' others : List Splice}

/-- What an action does: a splice begins, nothing happens, or one splice changes. -/
theorem step_cases (s : Splices) (a : SpliceAction) :
    (∃ addr, s.step a = { s with all := s.all ++ [.new addr] }) ∨ s.step a = s ∨
      ∃ sp sp' others r', s.all.Perm (sp :: others) ∧ (s.step a).all.Perm (sp' :: others) ∧
        (s.step a).cancels = r' ∧ sp.Change s.cancels r' sp' := by
  cases a with
  | start addr => exact Or.inl ⟨addr, rfl⟩
  | event i e =>
    refine Or.inr ?_
    cases hi : s.all[i]? with
    | none => exact Or.inl (by simp only [step, hi])
    | some sp =>
      have hstep : s.step (.event i e) =
          ⟨(sp.step s.cancels e).1, s.all.set i (sp.step s.cancels e).2⟩ := by simp only [step, hi]
      obtain ⟨hlt, -⟩ := List.getElem?_eq_some_iff.mp hi
      rw [hstep]
      refine Or.inr ⟨sp, (sp.step s.cancels e).2, _, _, Pool.perm_cons_of_getElem? hi, ?_, rfl,
        sp.change_step s.cancels e⟩
      rw [List.set_eq_take_append_cons_drop, if_pos hlt]
      exact List.perm_middle

theorem holds_cons {addr : String} :
    Holds (sp :: others) key addr ↔
      (sp.status ≠ .finished ∧ sp.captured = some key ∧ sp.backendAddr = addr) ∨
        Holds others key addr := by
  simp only [Holds, List.mem_cons, exists_eq_or_imp]

/-- Where keys are distinct, what one splice has captured no other one holds. -/
theorem not_holds_of_nodup (hcaptured : sp.captured = some key)
    (hdistinct : ((sp :: others).filterMap Splice.captured).Nodup) (addr : String) :
    ¬Holds others key addr := by
  rintro ⟨sp', hsp', -, hkey, -⟩
  rw [List.filterMap_cons_some hcaptured, List.nodup_cons] at hdistinct
  exact hdistinct.1 (List.mem_filterMap.mpr ⟨sp', hsp', hkey⟩)

namespace Scanned

theorem none_of_scanning {s : Splices} (h : Scanned s) (hsp : sp ∈ s.all)
    (hscanning : sp.scanner.done = false) : sp.captured = none := by
  by_contra hsome
  have hdone := h sp hsp (Option.isSome_iff_ne_none.mpr hsome)
  simp [hscanning] at hdone

theorem change (h : Scanned ⟨r, sp :: others⟩) (hc : sp.Change r r' sp') :
    Scanned ⟨r', sp' :: others⟩ := by
  have hsp := h sp List.mem_cons_self
  intro x hx hsome
  rcases List.mem_cons.mp hx with rfl | hx
  · cases hc with
    | quiet _ hcaptured hdone _ =>
      rw [hcaptured] at hsome
      exact hdone (hsp hsome)
    | capture _ _ _ hdone _ => exact hdone
    | finish hcaptured hscanner _ =>
      rw [hcaptured] at hsome
      rw [hscanner]
      exact hsp hsome
  · exact h x (List.mem_cons_of_mem _ hx) hsome

theorem step {s : Splices} {a : SpliceAction} (h : Scanned s) : Scanned (s.step a) := by
  rcases s.step_cases a with ⟨addr, hstep⟩ | hstep | ⟨sp, sp', others, r', hp, hp', -, hc⟩
  · rw [hstep]
    intro sp hsp hsome
    rcases List.mem_append.mp hsp with hsp | hsp
    · exact h sp hsp hsome
    · rw [List.mem_singleton.mp hsp] at hsome
      simp [Splice.new] at hsome
  · rw [hstep]
    exact h
  · have hbefore : Scanned ⟨s.cancels, sp :: others⟩ := fun x hx => h x (hp.mem_iff.mpr hx)
    exact fun x hx => hbefore.change hc x (hp'.mem_iff.mp hx)

theorem after (as : List SpliceAction) : Scanned (after as) :=
  run_invariant_always (I := Scanned) (fun _ hsp => absurd hsp List.not_mem_nil)
    (fun _ _ h => h.step) as

end Scanned

namespace Tracked

theorem perm (h : Tracked ⟨r, all⟩) (hp : all.Perm all') : Tracked ⟨r, all'⟩ := by
  intro key addr
  rw [h key addr]
  simp only [Holds, hp.mem_iff]

theorem capture {key : CancelKey} (h : Tracked ⟨r, sp :: others⟩) (hnone : sp.captured = none)
    (haddr : sp'.backendAddr = sp.backendAddr) (hcaptured : sp'.captured = some key)
    (hstatus : sp'.status ≠ .finished)
    (hdistinct : ((sp' :: others).filterMap Splice.captured).Nodup) :
    Tracked ⟨r.insert key sp.backendAddr, sp' :: others⟩ := by
  intro key' addr
  show Function.update r.map key (some sp.backendAddr) key' = some addr ↔ _
  by_cases hkey : key' = key
  · subst hkey
    rw [Function.update_self, holds_cons]
    simp only [Option.some.injEq, hstatus, hcaptured, haddr, ne_eq, not_false_eq_true, true_and,
      not_holds_of_nodup hcaptured hdistinct addr, or_false]
  · have hold := h key' addr
    rw [holds_cons] at hold
    simp only [hnone, reduceCtorEq, false_and, and_false, false_or] at hold
    rw [Function.update_of_ne hkey, holds_cons]
    simp only [hcaptured, Option.some.injEq, Ne.symm hkey, false_and, and_false, false_or]
    exact hold

theorem finish (h : Tracked ⟨r, sp :: others⟩) (hcaptured : sp'.captured = sp.captured)
    (hstatus : sp'.status = .finished)
    (hdistinct : ((sp' :: others).filterMap Splice.captured).Nodup) :
    Tracked ⟨match sp.captured with | some key => r.remove key | none => r, sp' :: others⟩ := by
  intro key addr
  have hold := h key addr
  rw [holds_cons] at hold ⊢
  simp only [hstatus, ne_eq, not_true_eq_false, false_and, false_or]
  cases hkey : sp.captured with
  | none =>
    simp only [hkey, reduceCtorEq, false_and, and_false, false_or] at hold
    exact hold
  | some key' =>
    show Function.update r.map key' none key = some addr ↔ _
    by_cases heq : key = key'
    · subst heq
      rw [Function.update_self]
      simp only [reduceCtorEq, not_holds_of_nodup (hcaptured.trans hkey) hdistinct addr]
    · rw [Function.update_of_ne heq]
      simp only [hkey, Option.some.injEq, Ne.symm heq, false_and, and_false, false_or] at hold
      exact hold

theorem change (h : Tracked ⟨r, sp :: others⟩) (hscanned : Scanned ⟨r, sp :: others⟩)
    (hc : sp.Change r r' sp') (hdistinct : ((sp' :: others).filterMap Splice.captured).Nodup) :
    Tracked ⟨r', sp' :: others⟩ := by
  cases hc with
  | quiet haddr hcaptured _ hstatus =>
    intro key addr
    rw [h key addr, holds_cons, holds_cons, haddr, hcaptured, ne_eq, ne_eq, hstatus]
  | capture haddr hcaptured hscanning _ hstatus =>
    exact h.capture (hscanned.none_of_scanning List.mem_cons_self hscanning) haddr hcaptured hstatus
      hdistinct
  | finish hcaptured _ hstatus => exact h.finish hcaptured hstatus hdistinct

theorem step {s : Splices} {a : SpliceAction} (h : Tracked s) (hscanned : Scanned s)
    (hdistinct : (s.step a).keys.Nodup) : Tracked (s.step a) := by
  rcases s.step_cases a with ⟨addr, hstep⟩ | hstep | ⟨sp, sp', others, r', hp, hp', hr, hc⟩
  · -- the new splice holds nothing
    rw [hstep]
    have hnew : Tracked ⟨s.cancels, .new addr :: s.all⟩ := by
      intro key addr'
      rw [holds_cons]
      simp only [Splice.new, reduceCtorEq, false_and, and_false, false_or]
      exact h key addr'
    exact hnew.perm (List.perm_append_singleton _ _).symm
  · rw [hstep]
    exact h
  · have hbefore : Scanned ⟨s.cancels, sp :: others⟩ := fun x hx => hscanned x (hp.mem_iff.mpr hx)
    have hnodup : ((sp' :: others).filterMap Splice.captured).Nodup :=
      (hp'.filterMap _).nodup_iff.mp hdistinct
    have hnext := (h.perm hp).change hbefore hc hnodup
    rw [← hr] at hnext
    exact hnext.perm hp'.symm

end Tracked

theorem keys_nodup_of_step {s : Splices} {a : SpliceAction} (hscanned : Scanned s)
    (h : (s.step a).keys.Nodup) : s.keys.Nodup := by
  rcases s.step_cases a with ⟨addr, hstep⟩ | hstep | ⟨sp, sp', others, r', hp, hp', -, hc⟩
  · rw [hstep, keys, List.filterMap_append] at h
    exact h.of_append_left
  · rwa [hstep] at h
  · have hafter : ((sp' :: others).filterMap Splice.captured).Nodup := (hp'.filterMap _).nodup_iff.mp h
    refine (hp.filterMap _).nodup_iff.mpr ?_
    have hsame : sp'.captured = sp.captured → ((sp :: others).filterMap Splice.captured).Nodup := by
      intro hcaptured
      rwa [List.filterMap_cons, ← hcaptured, ← List.filterMap_cons]
    cases hc with
    | quiet _ hcaptured _ _ => exact hsame hcaptured
    | finish hcaptured _ _ => exact hsame hcaptured
    | capture _ _ hscanning _ _ =>
      have hmem : sp ∈ s.all := hp.mem_iff.mpr List.mem_cons_self
      rw [List.filterMap_cons_none (hscanned.none_of_scanning hmem hscanning)]
      exact hafter.sublist ((List.sublist_cons_self sp' others).filterMap _)

theorem tracked_after {as : List SpliceAction} (h : (after as).keys.Nodup) : Tracked (after as) := by
  induction as using List.reverseRecOn with
  | nil => exact fun key addr => by simp [after, new, Holds, CancelRegistry.lookup, CancelRegistry.new]
  | append_singleton as a ih =>
    have hscanned : Scanned (after as) := .after as
    rw [after, run_concat] at h ⊢
    exact (ih (keys_nodup_of_step hscanned h)).step hscanned h

/-- Where keys are distinct, one splice has captured each. -/
theorem eq_of_captured {s : Splices} (h : s.keys.Nodup) (hsp : sp ∈ s.all) (hsp' : sp' ∈ s.all)
    (hkey : sp.captured = some key) (hkey' : sp'.captured = some key) : sp' = sp := by
  by_contra hne
  have hp := List.perm_cons_erase hsp
  have hnodup := ((hp.filterMap Splice.captured).nodup_iff.mp h)
  rw [List.filterMap_cons_some hkey, List.nodup_cons] at hnodup
  exact hnodup.1 (List.mem_filterMap.mpr ⟨sp', (List.mem_erase_of_ne hne).mpr hsp', hkey'⟩)

end Splices

/-- **The cancel registry.** For every run of any number of splices whose backends have issued
distinct keys: the registry maps exactly the keys of the live sessions, each to its backend,
exactly if no splice has failed after it captured its key; and then, and only then, a
`CancelRequest` is forwarded only to the backend of a live session with that key. -/
theorem tracksLive_iff (as : List SpliceAction) (hdistinct : (Splices.after as).keys.Nodup) :
    ((Splices.after as).TracksLive ↔ ¬(Splices.after as).Leaks) ∧
      ((Splices.after as).ForwardsToLive ↔ ¬(Splices.after as).Leaks) := by
  have htracked := Splices.tracked_after hdistinct
  have htracks : ¬(Splices.after as).Leaks → (Splices.after as).TracksLive := by
    intro hnoLeak key addr
    rw [htracked key addr]
    refine exists_congr fun sp => and_congr_right fun hsp => and_congr_left fun hkey => ?_
    cases hstatus : sp.status with
    | live => simp
    | finished => simp
    | failed => exact absurd ⟨sp, hsp, hstatus, by simp [hkey.1]⟩ hnoLeak
  have hforwards : (Splices.after as).TracksLive → (Splices.after as).ForwardsToLive := by
    intro h key addr packet hroute
    obtain ⟨addr', hlookup, hpair⟩ := Option.map_eq_some_iff.mp hroute
    rw [← (Prod.mk.inj hpair).1]
    exact (h key addr').mp hlookup
  have hnoLeak : (Splices.after as).ForwardsToLive → ¬(Splices.after as).Leaks := by
    rintro h ⟨sp, hsp, hstatus, hsome⟩
    obtain ⟨key, hkey⟩ := Option.isSome_iff_exists.mp hsome
    have hlookup := (htracked key sp.backendAddr).mpr ⟨sp, hsp, by simp [hstatus], hkey, rfl⟩
    obtain ⟨sp', hsp', hlive, hkey', -⟩ := h key sp.backendAddr _ (by
      rw [Splices.routeCancel, hlookup, Option.map_some])
    rw [Splices.eq_of_captured hdistinct hsp hsp' hkey hkey', hstatus] at hlive
    simp at hlive
  exact ⟨⟨fun h => hnoLeak (hforwards h), htracks⟩, ⟨hnoLeak, fun h => hforwards (htracks h)⟩⟩

/-- `AuthenticationOk` and the `BackendKeyData` of a backend. -/
def startupReply (key : CancelKey) : List UInt8 :=
  [82] ++ i32ToBe 8 ++ i32ToBe 0 ++ [MSG_BACKEND_KEY_DATA] ++ i32ToBe 12 ++ i32ToBe key.1 ++ i32ToBe key.2

/-- Two sessions, one of which has ended cleanly. -/
def twoSessions : List SpliceAction :=
  [.start "a:5432", .start "b:5432", .event 0 (.read (startupReply (7, -1))),
    .event 1 (.read (startupReply (8, -1))), .event 0 .written, .event 0 .c2bEof, .event 0 (.read [])]

theorem tracksLive_iff_sample :
    (Splices.after twoSessions).keys = [(7, -1), (8, -1)] ∧
      ((Splices.after twoSessions).TracksLive ↔ ¬(Splices.after twoSessions).Leaks) :=
  ⟨by decide, (tracksLive_iff twoSessions (by decide)).1⟩

/-- The client of a session is cut off. The splice is over, its key stays in the registry, and a
later `CancelRequest` with it is forwarded to the backend. -/
theorem cancel_after_failure :
    let s := Splices.after [.start "a:5432", .event 0 (.read (startupReply (7, -1))),
      .event 0 .written, .event 0 .c2bError]
    (∀ sp ∈ s.all, sp.status ≠ .live) ∧ s.cancels.lookup (7, -1) = some "a:5432" ∧
      s.routeCancel (7, -1) = some ("a:5432", cancelRequestBytes 7 (-1)) := by
  decide

end AethelDB.Proxy
