import AethelDB.Aethelctl.Serve

/-!
# A branch reported is a branch that exists

What a successful call of `branch_database` reports, and writes into the registry, exists on the page
server if and only if the request went through, or the timeline was there with this very branch point
(`branch_reported_iff`). Two calls with one name and two positions, or a call on a database without a
root timeline, report and record what is not there (`branch_reported_wrongly`).
-/

namespace AethelDB.Aethelctl

open AethelDB.Lib AethelDB.Text AethelDB.Pageserver

/-! ## What a call reports and records -/

/-- The tenant has a timeline with this id and this branch point. -/
def HasBranch (s : ControlState) (tenant timeline : String) (lsn : UInt64) : Prop :=
  ∃ id tl, TenantId.parse tenant = .ok id ∧ timelineAt s.manager id tl.id = some tl ∧
    tl.id.id.display = timeline ∧ tl.ancestorLsn = some ⟨lsn⟩

/-- What is reported, and what is in the registry and was not there before, exists on the page
server. -/
structure Truthful (before after : Console) (report : Report) : Prop where
  reported : ∃ db, before.registry.find report.database = some db ∧
    HasBranch after.server db.id report.timeline report.lsn
  recorded : ∀ db ∈ after.registry, ∀ point ∈ db.branches,
    (∃ old ∈ before.registry, old.name = db.name ∧ old.id = db.id ∧ point ∈ old.branches) ∨
      HasBranch after.server db.id point.timeline point.lsn

/-- The timeline can be branched off the root, or it is there with this branch point. -/
def Grantable (s : ControlState) (tenant : String) (new : TimelineId) (lsn : UInt64) : Prop :=
  (∃ id, TenantId.parse tenant = .ok id ∧ timelineAt s.manager id new = none ∧
      timelineAt s.manager id TimelineId.ZERO ≠ none) ∨
    HasBranch s tenant new.id.display lsn

theorem id_of_timelineAt {m : TenantManager} {id : TenantId} {x : TimelineId} {tl : Timeline}
    (h : timelineAt m id x = some tl) : tl.id = x := by
  obtain ⟨t, _, ht⟩ := Option.bind_eq_some_iff.mp h
  exact (Tenant.getTimeline_eq_some_iff.mp ht).2

theorem hasBranch_iff {s : ControlState} {tenant : String} {id : TenantId}
    (h : TenantId.parse tenant = .ok id) (new : TimelineId) (lsn : UInt64) :
    HasBranch s tenant new.id.display lsn ↔
      ∃ tl, timelineAt s.manager id new = some tl ∧ tl.ancestorLsn = some ⟨lsn⟩ := by
  constructor
  · rintro ⟨i, tl, hi, htl, hdisplay, hlsn⟩
    obtain rfl := Parsed.ok.inj (h.symm.trans hi)
    have hid : tl.id = new := TimelineId.display_injective hdisplay
    exact ⟨tl, hid ▸ htl, hlsn⟩
  · rintro ⟨tl, htl, hlsn⟩
    obtain rfl := id_of_timelineAt htl
    exact ⟨id, tl, h, htl, rfl, hlsn⟩

theorem grantable_iff {s : ControlState} {tenant : String} {id : TenantId}
    (h : TenantId.parse tenant = .ok id) (new : TimelineId) (lsn : UInt64) :
    Grantable s tenant new lsn ↔
      timelineAt s.manager id new = none ∧ timelineAt s.manager id TimelineId.ZERO ≠ none ∨
        (timelineAt s.manager id new).bind Timeline.ancestorLsn = some ⟨lsn⟩ := by
  unfold Grantable
  rw [hasBranch_iff h, Option.bind_eq_some_iff]
  refine or_congr_left ⟨?_, fun hnew => ⟨id, h, hnew⟩⟩
  rintro ⟨i, hi, hnew⟩
  obtain rfl := Parsed.ok.inj (h.symm.trans hi)
  exact hnew

/-- **One request, in both cases.** The branch is there after a request exactly if it could be
granted. -/
theorem hasBranch_branch_iff (client : Client) (o : Outside) (s : ControlState) (tenant : String)
    (new : TimelineId) (lsn : UInt64) :
    HasBranch (client.branch o s new.id.display ROOT_TIMELINE lsn (some tenant)).1 tenant new.id.display lsn
      ↔ Grantable s tenant new lsn := by
  by_cases hparse : ∃ id, TenantId.parse tenant = .ok id
  · obtain ⟨id, hid⟩ := hparse
    rw [hasBranch_iff hid, grantable_iff hid, ROOT_TIMELINE_eq, timelineAt_branch]
    cases hnew : timelineAt s.manager id new with
    | some tl => simp
    | none => cases hroot : timelineAt s.manager id TimelineId.ZERO <;> simp [hid, Timeline.ancestorLsn]
  · have hrefused : ∀ id, TenantId.parse tenant ≠ .ok id := fun id hid => hparse ⟨id, hid⟩
    constructor
    · rintro ⟨id, _, hid, _⟩
      exact absurd hid (hrefused id)
    · rintro (⟨id, hid, _⟩ | ⟨id, _, hid, _⟩) <;> exact absurd hid (hrefused id)

section Calls

variable {sha256 : List UInt8 → Digest} {client : Client} {o : Outside} {c : Console} {call : BranchCall}
  {report : Report}

/-- **One call.** What a successful call reports and records is there exactly if the request could
be granted. -/
theorem truthful_iff (h : (branchDatabase sha256 client o c call).2 = .ok report) :
    Truthful c (branchDatabase sha256 client o c call).1 report ↔
      ∃ db, c.registry.find call.name = some db ∧
        Grantable c.server db.id (call.timeline sha256) call.position := by
  obtain ⟨_, _, e, herror⟩ | ⟨db, hfind, hserver, hregistry, hreport⟩ :=
    branchDatabase_cases sha256 client o c call
  · exact absurd (h.symm.trans herror) (by simp)
  · obtain rfl := hreport report h
    have hiff := hasBranch_branch_iff client o c.server db.id (call.timeline sha256) call.position
    rw [← hserver] at hiff
    constructor
    · rintro ⟨⟨db', hfind', hbranch⟩, _⟩
      obtain rfl := Option.some.inj (hfind.symm.trans hfind')
      exact ⟨db, hfind, hiff.mp hbranch⟩
    · rintro ⟨db', hfind', hgrant⟩
      obtain rfl := Option.some.inj (hfind.symm.trans hfind')
      have hbranch := hiff.mpr hgrant
      refine ⟨⟨db, hfind, hbranch⟩, fun d hd point hpoint => ?_⟩
      rcases hregistry with hsame | hpush | ⟨e, left, _, herror⟩
      · exact Or.inl ⟨d, hsame ▸ hd, rfl, rfl, hpoint⟩
      · rcases Registry.mem_push hfind (hpush ▸ hd) with hold | rfl
        · exact Or.inl ⟨d, hold, rfl, rfl, hpoint⟩
        · rcases List.mem_append.mp hpoint with hold | hnew
          · exact Or.inl ⟨db, (Registry.mem_of_find hfind).1, rfl, rfl, hold⟩
          · obtain rfl := List.mem_singleton.mp hnew
            exact Or.inr hbranch
      · exact absurd (h.symm.trans herror) (by simp)

theorem not_truthful (h : (branchDatabase sha256 client o c call).2 = .ok report) {db : Database}
    (hfind : c.registry.find call.name = some db) {id : TenantId} (hid : TenantId.parse db.id = .ok id)
    (hnot : ¬ (timelineAt c.server.manager id (call.timeline sha256) = none ∧
        timelineAt c.server.manager id TimelineId.ZERO ≠ none ∨
      (timelineAt c.server.manager id (call.timeline sha256)).bind Timeline.ancestorLsn
        = some ⟨call.position⟩)) :
    ¬ Truthful c (branchDatabase sha256 client o c call).1 report := by
  intro htrue
  obtain ⟨db', hfind', hgrant⟩ := (truthful_iff h).mp htrue
  obtain rfl := Option.some.inj (hfind.symm.trans hfind')
  exact hnot ((grantable_iff hid _ _).mp hgrant)

end Calls

/-- **A branch reported is a branch that exists, exactly if it could be granted.** For every
registry, every state of the page server and every sequence of calls: when a call succeeds, what it
reports and records exists on the page server if and only if, just before the call, the timeline
could be branched off the root of the database's tenant or was there with this branch point. -/
theorem branch_reported_iff (sha256 : List UInt8 → Digest) (client : Client) (c : Console)
    (calls : List (BranchCall × Outside)) (call : BranchCall) (o : Outside) (report : Report)
    (h : (branchDatabase sha256 client o (after sha256 client c calls) call).2 = .ok report) :
    Truthful (after sha256 client c calls) (after sha256 client c (calls ++ [(call, o)])) report ↔
      ∃ db, (after sha256 client c calls).registry.find call.name = some db ∧
        Grantable (after sha256 client c calls).server db.id (call.timeline sha256) call.position := by
  have hconcat : after sha256 client c (calls ++ [(call, o)])
      = (branchDatabase sha256 client o (after sha256 client c calls) call).1 := run_concat calls (call, o)
  rw [hconcat]
  exact truthful_iff h

/-! ### A wire format, and a console -/

/-- A text behind its length in ones. -/
def sampleEncode (s : List Char) : List UInt8 := List.replicate (utf8 s).length 1 ++ 0 :: utf8 s

def sampleDecode (bytes : List UInt8) : Option (List Char × List UInt8) :=
  let n := (bytes.takeWhile (· == 1)).length
  let rest := bytes.drop (n + 1)
  (fromUtf8 (rest.take n)).map fun s => (s, rest.drop n)

theorem sampleDecode_sampleEncode (s : List Char) (rest : List UInt8) :
    sampleDecode (sampleEncode s ++ rest) = some (s, rest) := by
  have hassoc : sampleEncode s ++ rest = List.replicate (utf8 s).length 1 ++ 0 :: (utf8 s ++ rest) := by
    simp [sampleEncode]
  have hones : ((sampleEncode s ++ rest).takeWhile (· == 1)).length = (utf8 s).length := by
    rw [hassoc, List.takeWhile_append_of_pos (by simp)]
    simp
  have hdrop : (sampleEncode s ++ rest).drop ((utf8 s).length + 1) = utf8 s ++ rest := by
    rw [hassoc, List.append_cons, List.drop_left' (by simp)]
  unfold sampleDecode
  simp only
  rw [hones, hdrop, List.take_left, List.drop_left, fromUtf8_utf8, Option.map_some]

/-- The four fields one after the other. -/
def sampleBody (b : BranchBody) : List UInt8 :=
  sampleEncode b.timeline.toList ++ (sampleEncode b.parent.toList ++ (sampleEncode (decimal b.lsn.toNat) ++
    match b.tenant with
    | none => []
    | some tenant => sampleEncode tenant.toList))

def sampleRead (bytes : List UInt8) : Option BranchBody := do
  let (timeline, rest) ← sampleDecode bytes
  let (parent, rest) ← sampleDecode rest
  let (lsn, rest) ← sampleDecode rest
  let lsn ← parseDigits 0 lsn
  return ⟨String.ofList timeline, String.ofList parent, UInt64.ofNat lsn,
    if rest.isEmpty then none else (sampleDecode rest).map fun t => String.ofList t.1⟩

theorem sampleRead_sampleBody (b : BranchBody) : sampleRead (sampleBody b) = some b := by
  obtain ⟨timeline, parent, lsn, tenant⟩ := b
  simp only [sampleRead, sampleBody, sampleDecode_sampleEncode, parseDigits_decimal, Option.bind_eq_bind,
    Option.bind_some, String.ofList_toList, UInt64.ofNat_toNat]
  cases tenant with
  | none => rfl
  | some t =>
    have h := sampleDecode_sampleEncode t.toList []
    rw [List.append_nil] at h
    have hne : (sampleEncode t.toList).isEmpty = false := by simp [sampleEncode]
    simp [h, hne]

def sampleClient : Client where
  base := "http://127.0.0.1:6403"
  wire :=
    { json :=
        { tenantBody := fun _ => .error ""
          createBody := fun _ => .error ""
          branchBody := fun bytes => match sampleRead bytes with
            | some b => .ok b
            | none => .error ""
          receiveBody := fun _ => .error ""
          gcBody := fun _ => .error ""
          print := fun
            | .error msg => msg
            | _ => "" }
      encodeBranch := sampleBody
      errorOf := some
      branchBody_encodeBranch := fun b => by simp only [sampleRead_sampleBody]
      errorOf_print := fun _ => rfl }

def sampleDigest (bytes : List UInt8) : Digest :=
  ⟨List.replicate 32 (UInt8.ofNat (bytes.length + 1)), List.length_replicate⟩

/-- Everything works. -/
def sampleOutside : Outside where
  answers := ⟨.ok, none, fun _ => none, .ok (), true⟩
  transport := ""
  saved := .ok

section OneDatabase

variable (sha256 : List UInt8 → Digest) (client : Client) (call : BranchCall) (tenant : TenantId)

/-- The database of a call is registered, with these restore points, and is the only one. -/
def oneDatabase (points : List RestorePoint) (server : ControlState) : Console :=
  ⟨[⟨call.name, tenant.id.display, points, none⟩], server⟩

/-- The page server after a call. -/
def served (s : ControlState) : ControlState :=
  (client.branch sampleOutside s (call.timeline sha256).id.display ROOT_TIMELINE call.position
    (some tenant.id.display)).1

theorem find_oneDatabase (points : List RestorePoint) (s : ControlState) :
    (oneDatabase call tenant points s).registry.find call.name
      = some ⟨call.name, tenant.id.display, points, none⟩ := by
  simp [oneDatabase, Registry.find]

theorem timelineAt_served (s : ControlState) (x : TimelineId) :
    timelineAt (served sha256 client call tenant s).manager tenant x
      = if x = call.timeline sha256 ∧ timelineAt s.manager tenant (call.timeline sha256) = none then
          (timelineAt s.manager tenant TimelineId.ZERO).map fun p =>
            .branched (call.timeline sha256) p ⟨call.position⟩
        else timelineAt s.manager tenant x := by
  unfold served
  rw [ROOT_TIMELINE_eq, timelineAt_branch]
  simp [TenantId.parse_display]

theorem oneDatabase_ok (points : List RestorePoint) (s : ControlState) :
    (branchDatabase sha256 client sampleOutside (oneDatabase call tenant points s) call).2
      = .ok (call.report sha256) := by
  rw [branchDatabase_eq (find_oneDatabase call tenant points s) (TenantId.parse_display tenant) rfl]

/-- The first call on a database succeeds, and its restore point is in the registry. -/
theorem branchDatabase_oneDatabase (s : ControlState) :
    branchDatabase sha256 client sampleOutside (oneDatabase call tenant [] s) call
      = (oneDatabase call tenant [call.point sha256] (served sha256 client call tenant s),
          .ok (call.report sha256)) := by
  have hadd : (addBranch .ok (oneDatabase call tenant [] s).registry call.name (call.point sha256)).1
      = [⟨call.name, tenant.id.display, [call.point sha256], none⟩] := by
    unfold addBranch
    rw [find_oneDatabase]
    simp [oneDatabase, Registry.push]
  rw [branchDatabase_eq (find_oneDatabase call tenant [] s) (TenantId.parse_display tenant) rfl, hadd]
  rfl

end OneDatabase

/-- Without any tenant. -/
def bareServer : ControlState := ⟨TenantManager.new 4 none, none, ObjectStore.empty, []⟩

/-- With a tenant that has its root timeline. -/
def rootedServer : ControlState :=
  { bareServer with
    manager := (bareServer.manager.getOrCreate TenantId.ZERO).1.onTenant TenantId.ZERO fun t =>
      t.step (.create TimelineId.ZERO) }

theorem timelineAt_rootedServer (x : TimelineId) :
    timelineAt rootedServer.manager TenantId.ZERO x
      = if x = TimelineId.ZERO then some (.root TimelineId.ZERO) else none := by
  show [Timeline.root TimelineId.ZERO].find? (fun tl => decide (tl.id = x)) = _
  by_cases hx : x = TimelineId.ZERO
  · simp [hx, Timeline.id]
  · simp [hx, Timeline.id, Ne.symm hx]

/-- After a call on it the timeline is the branch, unless it is the root itself. -/
theorem timelineAt_served_rootedServer (sha256 : List UInt8 → Digest) (client : Client)
    (call : BranchCall) :
    timelineAt (served sha256 client call TenantId.ZERO rootedServer).manager TenantId.ZERO
        (call.timeline sha256)
      = some (if call.timeline sha256 = TimelineId.ZERO then .root TimelineId.ZERO
          else .branched (call.timeline sha256) (.root TimelineId.ZERO) ⟨call.position⟩) := by
  rw [timelineAt_served, timelineAt_rootedServer, timelineAt_rootedServer]
  by_cases hroot : call.timeline sha256 = TimelineId.ZERO
  · simp [hroot]
  · simp [hroot]

/-- A call for the branch `r` of `orders`. -/
def sampleCall (lsn : UInt64) : BranchCall := ⟨"orders", some "r", some lsn⟩

theorem branch_reported_iff_sample :
    Truthful (oneDatabase (sampleCall 10) TenantId.ZERO [] rootedServer)
      (after sampleDigest sampleClient (oneDatabase (sampleCall 10) TenantId.ZERO [] rootedServer)
        [(sampleCall 10, sampleOutside)]) ((sampleCall 10).report sampleDigest) := by
  have hok := oneDatabase_ok sampleDigest sampleClient (sampleCall 10) TenantId.ZERO [] rootedServer
  refine (branch_reported_iff sampleDigest sampleClient _ [] (sampleCall 10) sampleOutside _ hok).mpr ?_
  refine ⟨_, find_oneDatabase (sampleCall 10) TenantId.ZERO [] rootedServer, ?_⟩
  refine Or.inl ⟨TenantId.ZERO, TenantId.parse_display TenantId.ZERO, ?_, ?_⟩
  · refine (timelineAt_rootedServer _).trans (if_neg ?_)
    decide +kernel
  · simp [after, timelineAt_rootedServer]

section Untrue

variable (sha256 : List UInt8 → Digest) (client : Client)

/-- A second call for a branch, with another position, succeeds and reports that position, and the
branch stays where it is. -/
theorem second_call_untrue {a b : UInt64} (hne : a ≠ b) :
    let c := after sha256 client (oneDatabase (sampleCall a) TenantId.ZERO [] rootedServer)
      [(sampleCall a, sampleOutside)]
    let called := branchDatabase sha256 client sampleOutside c (sampleCall b)
    called.2 = .ok ((sampleCall b).report sha256) ∧ ¬ Truthful c called.1 ((sampleCall b).report sha256) := by
  have hfirst : after sha256 client (oneDatabase (sampleCall a) TenantId.ZERO [] rootedServer)
      [(sampleCall a, sampleOutside)]
      = oneDatabase (sampleCall b) TenantId.ZERO [(sampleCall a).point sha256]
        (served sha256 client (sampleCall a) TenantId.ZERO rootedServer) :=
    congrArg Prod.fst (branchDatabase_oneDatabase sha256 client (sampleCall a) TenantId.ZERO rootedServer)
  rw [hfirst]
  have hok := oneDatabase_ok sha256 client (sampleCall b) TenantId.ZERO [(sampleCall a).point sha256]
    (served sha256 client (sampleCall a) TenantId.ZERO rootedServer)
  refine ⟨hok, not_truthful hok (find_oneDatabase _ _ _ _) (TenantId.parse_display TenantId.ZERO) ?_⟩
  have hat := timelineAt_served_rootedServer sha256 client (sampleCall a)
  rintro (⟨hnone, _⟩ | hlsn)
  · exact absurd (hat.symm.trans hnone) (by simp)
  · have hbad : Timeline.ancestorLsn (if (sampleCall a).timeline sha256 = TimelineId.ZERO
        then .root TimelineId.ZERO
        else .branched ((sampleCall a).timeline sha256) (.root TimelineId.ZERO) ⟨a⟩) = some ⟨b⟩ :=
      (congrArg (Option.bind · Timeline.ancestorLsn) hat).symm.trans hlsn
    split at hbad
    · simp [Timeline.ancestorLsn] at hbad
    · simp [Timeline.ancestorLsn, hne] at hbad

/-- A call on a database whose tenant has no root succeeds, and its restore point is in the registry;
the tenant has no timeline at all. -/
theorem unrooted_call_untrue (lsn : UInt64) :
    let c := oneDatabase (sampleCall lsn) TenantId.ZERO [] bareServer
    let called := branchDatabase sha256 client sampleOutside c (sampleCall lsn)
    called.2 = .ok ((sampleCall lsn).report sha256) ∧
      ¬ Truthful c called.1 ((sampleCall lsn).report sha256) ∧
      called.1.registry.flatMap Database.branches = [(sampleCall lsn).point sha256] ∧
      ∀ timeline, timelineAt called.1.server.manager TenantId.ZERO timeline = none := by
  have hcall := branchDatabase_oneDatabase sha256 client (sampleCall lsn) TenantId.ZERO bareServer
  have hok := oneDatabase_ok sha256 client (sampleCall lsn) TenantId.ZERO [] bareServer
  refine ⟨hok, not_truthful hok (find_oneDatabase _ _ _ _) (TenantId.parse_display TenantId.ZERO) ?_, ?_, ?_⟩
  · rintro (⟨_, hroot⟩ | hlsn)
    · exact hroot rfl
    · have hbad : (none : Option Lsn) = some ⟨lsn⟩ := hlsn
      simp at hbad
  · rw [hcall]
    rfl
  · rw [hcall]
    intro x
    refine (timelineAt_served sha256 client (sampleCall lsn) TenantId.ZERO bareServer x).trans ?_
    split <;> rfl

end Untrue

/-- Two calls for the branch `r` of `orders`, at 10 and at 20; and one call, at 20, without a root. -/
theorem branch_reported_wrongly :
    (let c := after sampleDigest sampleClient (oneDatabase (sampleCall 10) TenantId.ZERO [] rootedServer)
        [(sampleCall 10, sampleOutside)]
      let called := branchDatabase sampleDigest sampleClient sampleOutside c (sampleCall 20)
      called.2 = .ok ((sampleCall 20).report sampleDigest) ∧
        ¬ Truthful c called.1 ((sampleCall 20).report sampleDigest)) ∧
    (let c := oneDatabase (sampleCall 20) TenantId.ZERO [] bareServer
      let called := branchDatabase sampleDigest sampleClient sampleOutside c (sampleCall 20)
      called.2 = .ok ((sampleCall 20).report sampleDigest) ∧
        ¬ Truthful c called.1 ((sampleCall 20).report sampleDigest) ∧
        called.1.registry.flatMap Database.branches = [(sampleCall 20).point sampleDigest] ∧
        ∀ timeline, timelineAt called.1.server.manager TenantId.ZERO timeline = none) :=
  ⟨second_call_untrue sampleDigest sampleClient (by decide), unrooted_call_untrue sampleDigest sampleClient 20⟩

end AethelDB.Aethelctl
