import AethelDB.Pageserver.Branching
import AethelDB.Pageserver.PointInTime

/-!
# A write to one branch is invisible on the others

A read on a timeline visits the stores of its ancestors, each at the branch point at
which the chain leaves it. A modification filed in the store of `c` therefore
reaches a read only if the chain goes through `c`, and only if it leaves `c` at or
above the modification's LSN: `branch_isolation`.

What makes it more than a remark about the chain is that a write may also freeze the
memtable it goes to, and that collections may have taken place before. Both only
matter through the slots a store holds. `Filed` says that these are distinct and were
all written, in every run, and a fresh slot above `L` is then no difference up to `L`
(`AgreeUpTo.ingest_filter`).
-/

namespace AethelDB.Pageserver

open AethelDB.Lib

/-! ## The slots in use after a run -/

/-- The stores hold distinct slots, each of which was written to its timeline. -/
structure Filed (t : Tenant) (log : TimelineId → List Modification) : Prop where
  distinct : ∀ id, (t.repos id).Distinct
  logged : ∀ id, ∀ e ∈ (t.repos id).contents, e.1 ∈ (log id).map Modification.slot

namespace Filed

variable {t : Tenant} {log : TimelineId → List Modification}

theorem new (n : Nat) : Filed (Tenant.new n) (fun _ => []) :=
  ⟨fun _ => List.nodup_nil, fun _ _ he => absurd he List.not_mem_nil⟩

theorem register (h : Filed t log) {tl : Timeline} (hf : t.getTimeline tl.id = none)
    (hp : ∀ p ∈ tl.parent, p ∈ t.timelines) : Filed (t.register tl hf hp) log := by
  have hrepo : ∀ id, (t.register tl hf hp).repos id = t.repos id ∨
      (t.register tl hf hp).repos id = t.newRepo := by
    intro id
    show Function.update t.repos tl.id t.newRepo id = _ ∨ _
    by_cases hid : id = tl.id
    · subst hid
      exact Or.inr (Function.update_self ..)
    · exact Or.inl (Function.update_of_ne hid ..)
  constructor
  · intro id
    rcases hrepo id with heq | heq
    · rw [heq]
      exact h.distinct id
    · rw [heq]
      exact List.nodup_nil
  · intro id e he
    rcases hrepo id with heq | heq
    · rw [heq] at he
      exact h.logged id e he
    · rw [heq] at he
      nomatch he

/-- An operation on stores that rearranges or drops entries. -/
theorem shrink (h : Filed t log) {t' : Tenant}
    (hrepo : ∀ id, ((t'.repos id).contents.map Prod.fst).Nodup ∧
      ∀ e ∈ (t'.repos id).contents, e ∈ (t.repos id).contents) : Filed t' log :=
  ⟨fun id => (hrepo id).1, fun id e he => h.logged id e ((hrepo id).2 e he)⟩

/-- A fresh slot of the log is not in use. -/
theorem nodup_append (h : Filed t log) {id : TimelineId} {mods : List Modification}
    (huniq : ((log id ++ mods).map Modification.slot).Nodup) :
    ((t.repos id).contents.map Prod.fst ++ mods.map Modification.slot).Nodup := by
  rw [List.map_append] at huniq
  obtain ⟨_, hmods, hdisj⟩ := List.nodup_append.mp huniq
  refine List.nodup_append.mpr ⟨h.distinct id, hmods, ?_⟩
  intro s hs s' hs'
  obtain ⟨e, he, rfl⟩ := List.mem_map.mp hs
  exact hdisj e.1 (h.logged id e he) s' hs'

theorem step (h : Filed t log) {op : TenantOp}
    (huniq : ∀ id, ((log id ++ op.ingested t id).map Modification.slot).Nodup) :
    Filed (t.step op) (fun id => log id ++ op.ingested t id) := by
  cases op with
  | create id =>
    simp only [TenantOp.ingested, List.append_nil]
    rcases t.step_create id with ⟨heq, _⟩ | ⟨hf, hp, heq⟩
    · rw [heq]
      exact h
    · rw [heq]
      exact h.register hf hp
  | branch newId parentId lsn =>
    simp only [TenantOp.ingested, List.append_nil]
    rcases t.step_branch newId parentId lsn with ⟨heq, _⟩ | ⟨parent, hf, hp, _, heq⟩
    · rw [heq]
      exact h
    · rw [heq]
      exact h.register hf hp
  | freeze id =>
    simp only [TenantOp.ingested, List.append_nil]
    refine h.shrink ?_
    intro i
    have hperm := t.step_freeze_contents id i
    exact ⟨(hperm.map Prod.fst).nodup_iff.mpr (h.distinct i), fun e he => hperm.mem_iff.mp he⟩
  | gc horizon =>
    simp only [TenantOp.ingested, List.append_nil]
    refine h.shrink ?_
    intro i
    show (((t.gc horizon).1.repos i).contents.map Prod.fst).Nodup ∧
      ∀ e ∈ ((t.gc horizon).1.repos i).contents, _
    simp only [Tenant.gc]
    cases t.getTimeline i with
    | none => exact ⟨h.distinct i, fun _ he => he⟩
    | some tl =>
      exact ⟨(h.distinct i).compact, fun e he => ((Repository.mem_compact (h.distinct i)).mp he).1⟩
  | ingest id mods =>
    have hnd := fun i => h.nodup_append (huniq i)
    refine ⟨?_, ?_⟩
    · intro i
      rw [t.step_ingest_repos]
      exact Repository.distinct_ingest (hnd i)
    · intro i e he
      rw [t.step_ingest_repos, (Repository.contents_ingest (hnd i)).mem_iff] at he
      rw [List.map_append]
      rcases List.mem_append.mp he with he | he
      · exact List.mem_append_left _ (h.logged i e he)
      · obtain ⟨m, hm, rfl⟩ := List.mem_map.mp he
        exact List.mem_append_right _ (List.mem_map_of_mem hm)

/-- Every run that writes distinct slots to each timeline, collections included. -/
theorem after {n : Nat} {ops : List TenantOp}
    (huniq : ∀ id, ((Tenant.log n ops id).map Modification.slot).Nodup) :
    Filed (Tenant.after n ops) (Tenant.log n ops) := by
  induction ops using List.reverseRecOn with
  | nil => exact new n
  | append_singleton ops op ih =>
    obtain ⟨hlog, hlast, hbefore⟩ := Tenant.log_split huniq
    rw [Tenant.after_concat, hlog]
    exact (ih hbefore).step hlast

end Filed

/-! ## Where a chain leaves a timeline -/

namespace Timeline

/-- The branch point at which the path from timeline `c` down to this one leaves `c`;
none if this one does not descend from `c`. -/
def leavesAt (c : TimelineId) : Timeline → Option Lsn
  | root _ => none
  | branched _ parent ancestorLsn =>
    if parent.id = c then some ancestorLsn else parent.leavesAt c

theorem eachRead_ne_iff {c : TimelineId} :
    ∀ {t : Timeline} {lsn : Lsn}, t.EachRead (fun id _ => id ≠ c) lsn ↔ c ∉ t.chain := by
  intro t
  induction t with
  | root id =>
    intro lsn
    rw [chain, List.mem_singleton]
    exact ne_comm
  | branched id p a ih =>
    intro lsn
    rw [chain, List.mem_cons, not_or, EachRead, ih]
    exact and_congr_left fun _ => ne_comm

theorem id_mem_chain (t : Timeline) : t.id ∈ t.chain := by
  cases t <;> exact List.mem_cons_self

theorem mem_chain_of_leavesAt {c : TimelineId} :
    ∀ {t : Timeline} {a : Lsn}, t.leavesAt c = some a → ∃ p ∈ t.parent, c ∈ p.chain := by
  intro t
  induction t with
  | root id => exact fun h => absurd h (by simp [leavesAt])
  | branched id p b ih =>
    intro a h
    refine ⟨p, rfl, ?_⟩
    rw [leavesAt] at h
    split at h
    · next hid => exact hid ▸ p.id_mem_chain
    · obtain ⟨q, hq, hmem⟩ := ih h
      cases p with
      | root i => simp [parent] at hq
      | branched i p' b' =>
        obtain rfl := Option.some.inj hq
        exact List.mem_cons_of_mem _ hmem

end Timeline

theorem Tenant.id_notMem_parent_chain {t : Tenant} {tl p : Timeline} (htl : tl ∈ t.timelines)
    (hp : p ∈ tl.parent) : tl.id ∉ p.chain := by
  cases tl with
  | root id => simp [Timeline.parent] at hp
  | branched id q a =>
    obtain rfl := Option.some.inj hp
    have hne : q.EachRead (fun i _ => i ≠ id) a :=
      Tenant.eachRead_ancestor_ne htl (t.closed _ htl _ rfl) (Nat.lt_succ_self _)
    exact Timeline.eachRead_ne_iff.mp hne

/-- Below `c`, the store of `c` is read at the branch point at which `c` is left. -/
theorem Tenant.eachRead_of_leavesAt {t : Tenant} {c : TimelineId} {a : Lsn} :
    ∀ {tl : Timeline} {lsn : Lsn}, tl ∈ t.timelines → tl.leavesAt c = some a →
      tl.EachRead (fun id l => id = c → l = a) lsn := by
  intro tl
  induction tl with
  | root id => exact fun _ h => absurd h (by simp [Timeline.leavesAt])
  | branched id p b ih =>
    intro lsn htl h
    have hp : p ∈ t.timelines := t.closed _ htl p rfl
    refine ⟨?_, ?_⟩
    · rintro rfl
      obtain ⟨q, hq, hmem⟩ := Timeline.mem_chain_of_leavesAt h
      exact absurd hmem (Tenant.id_notMem_parent_chain htl hq)
    · rw [Timeline.leavesAt] at h
      split at h
      · next hid =>
        -- the parent is `c` itself, and does not occur above
        subst hid
        obtain rfl := Option.some.inj h
        cases p with
        | root i => exact fun _ => rfl
        | branched i q b' =>
          refine ⟨fun _ => rfl, ?_⟩
          have hne : (Timeline.branched i q b').id ∉ q.chain :=
            Tenant.id_notMem_parent_chain hp rfl
          exact (Timeline.eachRead_ne_iff.mpr hne).imp fun _ _ hid heq => absurd heq hid
      · exact ih hp h

/-! ## Isolation -/

/-- The timelines on which a modification of `c` at `lsn` is not to be seen: those that
neither are `c` nor descend from it, and those whose path leaves `c` below `lsn`. -/
def Timeline.ApartFrom (c : TimelineId) (lsn : Lsn) (tl : Timeline) : Prop :=
  c ∉ tl.chain ∨ ∃ a, tl.leavesAt c = some a ∧ a < lsn

/-- **Branch isolation.** In every run, a modification ingested into timeline `c`
leaves every read unchanged on the timelines that are neither `c` nor descend from it,
and on the descendants whose path leaves `c` below the modification. -/
theorem branch_isolation (redo : WalRedoManager) (n : Nat) (ops : List TenantOp) (c : TimelineId)
    (m : Modification)
    (huniq : ∀ id, ((Tenant.log n (ops ++ [.ingest c [m]]) id).map Modification.slot).Nodup)
    (tl : Timeline) (htl : tl ∈ (Tenant.after n ops).timelines) (hapart : tl.ApartFrom c m.lsn)
    (key : PageKey) (rel : RelTag) (lsn : Lsn) :
    tl.getPage redo ((Tenant.after n ops).ingest c [m]).repos key lsn
        = tl.getPage redo (Tenant.after n ops).repos key lsn ∧
      tl.getRelSize ((Tenant.after n ops).ingest c [m]).repos rel lsn
        = tl.getRelSize (Tenant.after n ops).repos rel lsn := by
  obtain ⟨t, ht⟩ : ∃ t, Tenant.after n ops = t := ⟨_, rfl⟩
  have hlog : ∀ id, Tenant.log n (ops ++ [.ingest c [m]]) id
      = Tenant.log n ops id ++ (TenantOp.ingest c [m]).ingested t id := by
    intro id
    rw [Tenant.log_concat, ht]
  simp only [hlog] at huniq
  have hfiled : Filed t (Tenant.log n ops) := by
    rw [← ht]
    refine Filed.after fun id => ?_
    have hall := huniq id
    rw [List.map_append] at hall
    exact (List.nodup_append.mp hall).1
  rw [ht] at htl ⊢
  -- what a read at `l` in the store of `id` can tell
  have hagree : ∀ id l, (id = c → l < m.lsn) →
      AgreeUpTo l ((t.ingest c [m]).repos id) (t.repos id) := by
    intro id l hl
    rw [Tenant.ingest, Tenant.onStore_repos]
    split
    · next hc =>
      have hfuture : [m].filter (fun m => decide (m.lsn ≤ l)) = [] := by
        rw [List.filter_cons_of_neg (by simpa using hl hc.1), List.filter_nil]
      have hnd := hfiled.nodup_append (huniq id)
      simp only [TenantOp.ingested, if_pos hc] at hnd
      have h := (AgreeUpTo.refl l (t.repos id)).ingest_filter (hfiled.distinct id) hnd
      rw [hfuture] at h
      exact h
    · exact AgreeUpTo.refl l _
  have heach : tl.EachRead (fun id l => id = c → l < m.lsn) lsn := by
    rcases hapart with hout | ⟨a, ha, hlt⟩
    · exact (Timeline.eachRead_ne_iff.mpr hout).imp fun _ _ hne heq => absurd heq hne
    · exact (Tenant.eachRead_of_leavesAt htl ha).imp fun _ _ hl heq => (hl heq) ▸ hlt
  refine ⟨Timeline.getPage_eq_of_sameRead ?_, Timeline.getRelSize_eq_of_each ?_⟩
  · exact heach.imp fun id l hl => (hagree id l hl).sameRead le_rfl redo key
  · exact heach.imp fun id l hl => (hagree id l hl).relSizes.getRelSize_eq le_rfl rel

/-- A write to `main` above the branch point of `dev`, into a store that freezes on it. -/
theorem branch_isolation_sample :
    (Timeline.branched devId (.root mainId) 20).getPage rustApply
        ((Tenant.after 1 branchSample).ingest mainId [imageSample 40 9]).repos ⟨relSample, 0⟩ 50
      = (Timeline.branched devId (.root mainId) 20).getPage rustApply
          (Tenant.after 1 branchSample).repos ⟨relSample, 0⟩ 50 :=
  (branch_isolation rustApply 1 branchSample mainId (imageSample 40 9)
    (Tenant.log_nodup_of_mods (by decide)) (.branched devId (.root mainId) 20) (by decide)
    (Or.inr ⟨20, rfl, by decide⟩) ⟨relSample, 0⟩ relSample 50).1

end AethelDB.Pageserver
