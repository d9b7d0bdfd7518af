import AethelDB.Common.PageCodec
import AethelDB.Pageserver.TenantManager
import AethelDB.Pageserver.ReadAfterGc

/-!
# The page service and the meaning of LSN 0

`pageserver/src/server.rs`. `readPageRequest` is how `handle_page_conn` takes a request
off its connection, and `answer` the response it writes for one decoded request. The compute always asks at `Lsn::INVALID`, which the protocol
documents as "the latest version"; the handler passes it on as an ordinary LSN
bound. The results below say when the two readings coincide: for a page, when the
latest read uses no own version above LSN 0 of the timeline (`LatestIsOld`); for
a relation size, when the last size recorded on the timeline is the one at LSN 0,
or both are covered by the inherited one (`SizeIsOld`).
-/

namespace AethelDB.Pageserver

open AethelDB.Lib

/-- A request off the connection: the header, then as much as it announces. `none` when the
connection ends in or before a header. -/
def readPageRequest : Reader UInt8 String (Option Request) := fun input =>
  if input.length < PageService.HEADER_LEN then .ok (none, [])
  else
    match Request.totalLen (input.take PageService.HEADER_LEN) with
    | .error e => .error ("parsing page request header: " ++ e)
    | .ok total =>
      if input.length < total then .error "reading page request body: early eof"
      else
        match Request.decode (input.take total) with
        | .error e => .error ("decoding page request: " ++ e)
        | .ok req => .ok (some req, input.drop total)

theorem takes_readPageRequest (r : Request) : Takes readPageRequest r.encode (some r) := by
  intro rest
  have hlen : PageService.HEADER_LEN ≤ r.encode.length := by
    rw [r.length_encode]
    cases r <;> exact Nat.le_add_right _ _
  have hheader : ¬(r.encode ++ rest).length < PageService.HEADER_LEN := by
    rw [List.length_append]
    omega
  have hbody : ¬(r.encode ++ rest).length < r.encode.length := by
    rw [List.length_append]
    omega
  rw [readPageRequest, if_neg hheader, Request.totalLen_encode]
  dsimp only
  rw [if_neg hbody, List.take_left, List.drop_left, Request.decode_encode]

def answer (m : TenantManager) (req : Request) : Response :=
  match m.resolve req.tenant req.timeline with
  | none =>
    .error ("unknown tenant/timeline " ++ req.tenant.id.display ++ "/" ++ req.timeline.id.display)
  | some (t, tl) =>
    match req with
    | .getPage _ _ rel block lsn =>
      match tl.getPage m.backend t.repos ⟨rel, block⟩ lsn with
      | .ok (.page page) => .page page
      | .ok .notFound => .notFound
      | .error e => .error ("reconstruction failed: " ++ e.display)
    | .getRelSize _ _ rel lsn =>
      match tl.getRelSize t.repos rel lsn with
      | some n => .relSize n
      | none => .notFound

theorem answer_getPage_iff {m : TenantManager} {tenant : TenantId} {timeline : TimelineId}
    {rel : RelTag} {block : UInt32} {lsn : Lsn} {page : List UInt8} (t : Tenant) (tl : Timeline)
    (hr : m.resolve tenant timeline = some (t, tl)) :
    answer m (.getPage tenant timeline rel block lsn) = .page page ↔
      tl.getPage m.backend t.repos ⟨rel, block⟩ lsn = .ok (.page page) := by
  simp only [answer, Request.tenant, Request.timeline, hr]
  constructor
  · intro h
    split at h
    · next p hp => rw [hp, Response.page.inj h]
    · simp at h
    · simp at h
  · intro h
    rw [h]

/-! ## Pages -/

/-- The same registry with other page contents of the same shape. -/
def Rewriting.manager (f : Rewriting) (m : TenantManager) : TenantManager :=
  { m with
    tenants := m.tenants.map fun e => (e.1, f.tenant e.2)
    nodup := by
      rw [List.map_map]
      exact m.nodup }

namespace TenantManager

/-- The same registry with the native backend. -/
def native (m : TenantManager) : TenantManager := { m with redo := none }

theorem resolve_rewriting (f : Rewriting) (m : TenantManager) (tenant : TenantId)
    (timeline : TimelineId) :
    (f.manager m).resolve tenant timeline
      = (m.resolve tenant timeline).map fun r => (f.tenant r.1, r.2) := by
  have hget : (f.manager m).get tenant = (m.get tenant).map f.tenant := by
    unfold get Rewriting.manager
    rw [List.find?_map, Option.map_map, Option.map_map]
    rfl
  unfold resolve
  rw [hget]
  cases m.get tenant with
  | none => rfl
  | some t =>
    show ((f.tenant t).getTimeline timeline).map _ = ((t.getTimeline timeline).map _).map _
    rw [show (f.tenant t).getTimeline timeline = t.getTimeline timeline from rfl, Option.map_map]
    rfl

theorem mem_of_resolve {m : TenantManager} {tenant : TenantId} {timeline : TimelineId}
    {t : Tenant} {tl : Timeline} (h : m.resolve tenant timeline = some (t, tl)) :
    tl ∈ t.timelines := by
  unfold resolve at h
  cases hg : m.get tenant with
  | none => rw [hg] at h; exact absurd h (by simp)
  | some t' =>
    rw [hg] at h
    obtain ⟨u, hu, heq⟩ := Option.map_eq_some_iff.mp h
    obtain ⟨rfl, rfl⟩ := Prod.mk.inj heq
    exact (Tenant.getTimeline_eq_some_iff.mp hu).1

/-- The latest read of the page uses no own version above LSN 0. -/
def LatestIsOld (m : TenantManager) (tenant : TenantId) (timeline : TimelineId)
    (key : PageKey) : Prop :=
  ∀ t tl, m.resolve tenant timeline = some (t, tl) → tl.Found t.repos key Lsn.MAX →
    ∀ e ∈ tl.ownUsed t.repos key Lsn.MAX, e.1 ≤ Lsn.INVALID

end TenantManager

namespace Timeline

/-- Without a used own version above LSN 0, reading at 0 is reading the latest. -/
theorem getPage_zero_of_old {redo : WalRedoManager} (hl : redo.Lawful) {repos : Stores}
    {key : PageKey} {tl : Timeline}
    (h : tl.Found repos key Lsn.MAX → ∀ e ∈ tl.ownUsed repos key Lsn.MAX, e.1 ≤ Lsn.INVALID) :
    tl.getPage redo repos key Lsn.INVALID = tl.getPage redo repos key Lsn.MAX :=
  getPage_of_filtered hl (Repository.versions_le (Lsn.INVALID_le _) _ key) (fun _ _ _ _ => rfl)
    (fun hf e he => decide_eq_true (h hf e he))

/-- With a used own version above LSN 0, some contents give the read at 0 another
outcome than the page of the latest read. -/
theorem exists_marking_of_newer {t : Tenant} {tl : Timeline} (htl : tl ∈ t.timelines)
    {key : PageKey} (hf : tl.Found t.repos key Lsn.MAX) {e : Lsn × PageVersion}
    (he : e ∈ tl.ownUsed t.repos key Lsn.MAX) (hgt : ¬ e.1 ≤ Lsn.INVALID) :
    ∃ f : Rewriting, ∃ q, tl.getPage rustApply (f.stores t.repos) key Lsn.MAX = .ok (.page q) ∧
      tl.getPage rustApply (f.stores t.repos) key Lsn.INVALID ≠ .ok (.page q) := by
  by_cases hf0 : tl.Found t.repos key Lsn.INVALID
  · -- the version is above the read, and ancestors have other ids
    have hown : ∀ x ∈ (t.repos tl.id).versions key Lsn.INVALID none, tl.id = tl.id → x.1 ≠ e.1 := by
      intro x hx _ hlsn
      exact hgt (hlsn ▸ (Repository.mem_versions.mp hx).2)
    have habsent : tl.EachRead (fun id l => ∀ x ∈ (t.repos id).versions key l none,
        id = tl.id → x.1 ≠ e.1) Lsn.INVALID := by
      cases tl with
      | root id => exact hown
      | branched id p a =>
        refine ⟨hown, (Tenant.eachRead_ancestor_ne htl (t.closed _ htl p rfl)
          (Nat.lt_succ_self _)).imp ?_⟩
        exact fun i l hi x _ hid => absurd hid hi
    obtain ⟨f, q, q', hq, hq', hne⟩ := exists_marking_of_absent hf hf0 he habsent
    refine ⟨f, q, hq, ?_⟩
    intro heq
    have hpage := hq'.symm.trans heq
    injection hpage with hpage
    injection hpage with hpage
    exact hne hpage
  · -- nothing is found at 0, so any contents the latest read can replay will do
    obtain ⟨q, hq, _⟩ := getPage_marked t.repos (fun _ _ => false) key hf
    refine ⟨_, q, hq, ?_⟩
    rw [(getPage_notFound_iff rustApply_lawful).mpr
      (fun hc => hf0 (((marking _).found_iff t.repos key).mp hc))]
    simp

end Timeline

/-! ## Relation sizes -/

namespace Timeline

/-- The size a branch inherits. -/
def inheritedSize (repos : Stores) (rel : RelTag) : Timeline → Option UInt32
  | root _ => none
  | branched _ p a => p.getRelSize repos rel a

/-- The larger of two optional sizes hides a difference only by covering it. -/
theorem getRelSize_eq_iff {repos : Stores} {rel : RelTag} {tl : Timeline} {lsn lsn' : Lsn} :
    tl.getRelSize repos rel lsn = tl.getRelSize repos rel lsn' ↔
      (repos tl.id).getRelSize rel lsn = (repos tl.id).getRelSize rel lsn' ∨
        ∃ n, tl.inheritedSize repos rel = some n ∧
          ((repos tl.id).getRelSize rel lsn).getD 0 ≤ n ∧
          ((repos tl.id).getRelSize rel lsn').getD 0 ≤ n := by
  have hmax : ∀ a b n : UInt32, max a n = max b n ↔ a = b ∨ (a ≤ n ∧ b ≤ n) := by
    intro a b n
    show (if a ≤ n then n else a) = (if b ≤ n then n else b) ↔ _
    simp only [UInt32.le_iff_toNat_le, ← UInt32.toNat_inj]
    split_ifs <;> omega
  have hcover : ∀ a n : UInt32, max a n = n ↔ a ≤ n := by
    intro a n
    show (if a ≤ n then n else a) = n ↔ _
    simp only [UInt32.le_iff_toNat_le, ← UInt32.toNat_inj]
    split_ifs <;> omega
  have hcover' : ∀ a n : UInt32, n = max a n ↔ a ≤ n := fun a n => eq_comm.trans (hcover a n)
  cases tl with
  | root id => simp [getRelSize, inheritedSize, Timeline.id]
  | branched id p a =>
    simp only [getRelSize, inheritedSize, Timeline.id]
    cases (repos id).getRelSize rel lsn <;> cases (repos id).getRelSize rel lsn' <;>
      cases p.getRelSize repos rel a <;> simp [hmax, hcover, hcover']

end Timeline

/-- The last size recorded on the timeline is the one at LSN 0, or both are
covered by the inherited size. -/
def TenantManager.SizeIsOld (m : TenantManager) (tenant : TenantId) (timeline : TimelineId)
    (rel : RelTag) : Prop :=
  ∀ t tl, m.resolve tenant timeline = some (t, tl) →
    (t.repos tl.id).getRelSize rel Lsn.INVALID = (t.repos tl.id).getRelSize rel Lsn.MAX ∨
      ∃ n, tl.inheritedSize t.repos rel = some n ∧
        ((t.repos tl.id).getRelSize rel Lsn.INVALID).getD 0 ≤ n ∧
        ((t.repos tl.id).getRelSize rel Lsn.MAX).getD 0 ≤ n

/-! ## LSN 0 on the wire -/

section Wire

variable {m : TenantManager} {tenant : TenantId} {timeline : TimelineId}

theorem answer_getPage_zero_of_old (hl : m.backend.Lawful) {rel : RelTag} {block : UInt32}
    (hold : m.LatestIsOld tenant timeline ⟨rel, block⟩) :
    answer m (.getPage tenant timeline rel block Lsn.INVALID)
      = answer m (.getPage tenant timeline rel block Lsn.MAX) := by
  simp only [answer, Request.tenant, Request.timeline]
  cases hr : m.resolve tenant timeline with
  | none => rfl
  | some r =>
    obtain ⟨t, tl⟩ := r
    simp only [Timeline.getPage_zero_of_old hl (hold t tl hr)]

/-- Which versions a read uses depends on the shape only. -/
theorem TenantManager.LatestIsOld.rewriting {key : PageKey}
    (hold : m.LatestIsOld tenant timeline key) (f : Rewriting) :
    (f.manager m).LatestIsOld tenant timeline key := by
  intro t tl hr hf e he
  rw [TenantManager.resolve_rewriting] at hr
  obtain ⟨⟨t', tl'⟩, hr', heq⟩ := Option.map_eq_some_iff.mp hr
  obtain ⟨rfl, rfl⟩ := Prod.mk.inj heq
  rw [show (f.tenant t').repos = f.stores t'.repos from rfl] at hf he
  rw [Tenant.ownUsed_rewriting] at he
  obtain ⟨e', he', rfl⟩ := List.mem_map.mp he
  exact hold t' tl' hr' ((f.found_iff t'.repos _).mp hf) e' he'

/-- If the two answers agree whatever the contents, the latest read is old. -/
theorem latestIsOld_of_answers {rel : RelTag} {block : UInt32}
    (hall : ∀ f : Rewriting,
      answer (f.manager m.native) (.getPage tenant timeline rel block Lsn.INVALID)
        = answer (f.manager m.native) (.getPage tenant timeline rel block Lsn.MAX)) :
    m.LatestIsOld tenant timeline ⟨rel, block⟩ := by
  intro t tl hr hf e he
  by_contra hgt
  obtain ⟨f, q, hq, hne⟩ :=
    Timeline.exists_marking_of_newer (TenantManager.mem_of_resolve hr) hf he hgt
  have hr' : (f.manager m.native).resolve tenant timeline = some (f.tenant t, tl) := by
    rw [TenantManager.resolve_rewriting, show m.native.resolve tenant timeline = some (t, tl) from hr]
    rfl
  have hlatest := (answer_getPage_iff (f.tenant t) tl hr').mpr hq
  exact hne ((answer_getPage_iff (f.tenant t) tl hr').mp ((hall f).trans hlatest))

theorem answer_getRelSize_zero_iff (rel : RelTag) :
    answer m (.getRelSize tenant timeline rel Lsn.INVALID)
        = answer m (.getRelSize tenant timeline rel Lsn.MAX)
      ↔ m.SizeIsOld tenant timeline rel := by
  -- the response determines the size
  have hresp : ∀ a b : Option UInt32,
      ((match a with | some n => Response.relSize n | none => .notFound)
        = (match b with | some n => Response.relSize n | none => .notFound)) ↔ a = b := by
    intro a b
    cases a <;> cases b <;> simp
  simp only [answer, Request.tenant, Request.timeline, TenantManager.SizeIsOld]
  cases hr : m.resolve tenant timeline with
  | none => simp
  | some r =>
    obtain ⟨t, tl⟩ := r
    simp only [hresp, Timeline.getRelSize_eq_iff, Option.some.injEq, Prod.mk.injEq]
    constructor
    · intro h t' tl' hx
      obtain ⟨rfl, rfl⟩ := hx
      exact h
    · exact fun h => h t tl ⟨rfl, rfl⟩

end Wire

/-- **When LSN 0 means the latest version.** For every registry of tenants and
every route: a page is served at LSN 0 as it is served at the largest LSN,
whatever the page contents, exactly when the latest read uses no own version
above LSN 0; a relation size exactly when no own size recorded later shows. The
condition suffices with any lawful backend. -/
theorem lsn_zero_is_latest_iff (m : TenantManager) (tenant : TenantId) (timeline : TimelineId) :
    (∀ rel block,
      (∀ f : Rewriting,
        answer (f.manager m.native) (.getPage tenant timeline rel block Lsn.INVALID)
          = answer (f.manager m.native) (.getPage tenant timeline rel block Lsn.MAX))
      ↔ m.LatestIsOld tenant timeline ⟨rel, block⟩)
    ∧ (∀ rel,
      answer m (.getRelSize tenant timeline rel Lsn.INVALID)
          = answer m (.getRelSize tenant timeline rel Lsn.MAX)
      ↔ m.SizeIsOld tenant timeline rel)
    ∧ (m.backend.Lawful → ∀ rel block, m.LatestIsOld tenant timeline ⟨rel, block⟩ →
      answer m (.getPage tenant timeline rel block Lsn.INVALID)
        = answer m (.getPage tenant timeline rel block Lsn.MAX)) := by
  refine ⟨fun rel block => ⟨latestIsOld_of_answers, ?_⟩, answer_getRelSize_zero_iff,
    fun hl _ _ => answer_getPage_zero_of_old hl⟩
  intro hold f
  have hnative : m.native.LatestIsOld tenant timeline ⟨rel, block⟩ := hold
  refine answer_getPage_zero_of_old ?_ (hnative.rewriting f)
  exact rustApply_lawful

/-- One tenant with one timeline, holding one image. -/
def oneImage (lsn : Lsn) : TenantManager :=
  ((TenantManager.new 4 none).getOrCreate TenantId.ZERO).1.onTenant TenantId.ZERO fun t =>
    (t.step (.create mainId)).step (.ingest mainId [imageSample lsn 1])

theorem lsn_zero_is_latest_sample :
    answer (oneImage 0) (.getPage TenantId.ZERO mainId relSample 0 Lsn.INVALID)
      = answer (oneImage 0) (.getPage TenantId.ZERO mainId relSample 0 Lsn.MAX) := by
  refine (lsn_zero_is_latest_iff (oneImage 0) TenantId.ZERO mainId).2.2 rustApply_lawful
    relSample 0 ?_
  intro t tl hr _
  obtain ⟨rfl, rfl⟩ := Prod.mk.inj (Option.some.inj hr)
  decide

/-- An image ingested at LSN 10 is not served at LSN 0. -/
theorem lsn_zero_misses_latest :
    answer (oneImage 10) (.getPage TenantId.ZERO mainId relSample 0 Lsn.INVALID) = .notFound
      ∧ answer (oneImage 10) (.getPage TenantId.ZERO mainId relSample 0 Lsn.MAX)
          = .page (List.replicate PAGE_SIZE 1)
      ∧ answer (oneImage 10) (.getRelSize TenantId.ZERO mainId relSample Lsn.INVALID) = .notFound
      ∧ answer (oneImage 10) (.getRelSize TenantId.ZERO mainId relSample Lsn.MAX)
          = .relSize 1 := by
  refine ⟨rfl, ?_, by decide, by decide⟩
  exact (answer_getPage_iff
    (((Tenant.new 4).step (.create mainId)).step (.ingest mainId [imageSample 10 1]))
    (.root mainId) rfl).mpr
    (Repository.getPage_of_last_image rustApply_lawful 10 [] rfl List.length_replicate)

end AethelDB.Pageserver
