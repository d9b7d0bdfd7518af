import AethelDB.Pageserver.Compaction

/-!
# Timelines: copy-on-write reads up an ancestor chain

`pageserver/src/timeline.rs`. A timeline is a root, or a branch of a parent at
`ancestorLsn`; the chain is fixed when the branch is created. The stores are
mutable and shared, so they are kept apart from the chain, in a heap from
timeline id to repository, and reads recurse over the chain.

Reads are compared on two heaps three times in the development: with and
without garbage collection, with and without modifications above the requested
LSN, and before and after one collection. What they share is
`getPage_eq_of_sameRead`: a read is determined by each store's own answer and by
what each store replays over an inherited base.
-/

namespace AethelDB.Pageserver

open AethelDB.Lib

inductive Timeline where
  | root (id : TimelineId)
  | branched (id : TimelineId) (parent : Timeline) (ancestorLsn : Lsn)
deriving DecidableEq

abbrev Stores := TimelineId → Repository

namespace Timeline

def id : Timeline → TimelineId
  | root id => id
  | branched id _ _ => id

def parent : Timeline → Option Timeline
  | root _ => none
  | branched _ p _ => some p

def ancestorTimeline (t : Timeline) : Option TimelineId := t.parent.map id

def ancestorLsn : Timeline → Option Lsn
  | root _ => none
  | branched _ _ lsn => some lsn

def depth : Timeline → Nat
  | root _ => 0
  | branched _ p _ => p.depth + 1

/-- Reconstruct `key` at `lsn`, inheriting where this branch has no own base. -/
def getPage (redo : WalRedoManager) (repos : Stores) :
    Timeline → PageKey → Lsn → Except PageError PageLookup
  | root id, key, lsn => (repos id).getPage redo key lsn
  | branched id parent ancestorLsn, key, lsn =>
    match (repos id).getPage redo key lsn with
    | .error e => .error e
    | .ok (.page page) => .ok (.page page)
    | .ok .notFound =>
      match parent.getPage redo repos key ancestorLsn with
      | .error e => .error e
      | .ok (.page base) =>
        (repos id).getPageWithBase redo key lsn (some (ancestorLsn, base))
      | .ok .notFound => .ok .notFound

/-- The larger of the own fork size and the one inherited at the branch point. -/
def getRelSize (repos : Stores) : Timeline → RelTag → Lsn → Option UInt32
  | root id, rel, lsn => (repos id).getRelSize rel lsn
  | branched id parent ancestorLsn, rel, lsn =>
    match (repos id).getRelSize rel lsn, parent.getRelSize repos rel ancestorLsn with
    | some a, some b => some (max a b)
    | a, b => a.or b

/-- What a branch without an own base makes of the parent's answer. -/
def overPage (inherited : Except PageError PageLookup)
    (replay : List UInt8 → Except PageError PageLookup) : Except PageError PageLookup :=
  match inherited with
  | .ok (.page base) => replay base
  | answer => answer

theorem overPage_cases (x : Except PageError PageLookup)
    (f : List UInt8 → Except PageError PageLookup) :
    (∃ base, x = .ok (.page base) ∧ overPage x f = f base) ∨
      (∀ base, x ≠ .ok (.page base)) ∧ overPage x f = x := by
  rcases x with e | q | base
  · exact Or.inr ⟨fun _ => nofun, rfl⟩
  · exact Or.inl ⟨q, rfl, rfl⟩
  · exact Or.inr ⟨fun _ => nofun, rfl⟩

theorem overPage_congr {x : Except PageError PageLookup}
    {f g : List UInt8 → Except PageError PageLookup}
    (h : ∀ base, x = .ok (.page base) → f base = g base) : overPage x f = overPage x g := by
  rcases x with e | q | base
  · rfl
  · exact h q rfl
  · rfl

section

variable {redo : WalRedoManager} {repos : Stores} {id : TimelineId} {p : Timeline} {a lsn : Lsn}
  {key : PageKey}

/-- A branch that has an answer of its own gives it. -/
theorem getPage_of_own (h : (repos id).getPage redo key lsn ≠ .ok .notFound) :
    (branched id p a).getPage redo repos key lsn = (repos id).getPage redo key lsn := by
  rw [getPage]
  split
  · next ho => exact ho.symm
  · next ho => exact ho.symm
  · next ho => exact absurd ho h

/-- Without one it replays what it has over the parent's page at the branch point. -/
theorem getPage_of_notFound (h : (repos id).getPage redo key lsn = .ok .notFound) :
    (branched id p a).getPage redo repos key lsn
      = overPage (p.getPage redo repos key a) fun base =>
          (repos id).getPageWithBase redo key lsn (some (a, base)) := by
  simp only [getPage, h]
  rcases p.getPage redo repos key a with e | q | base <;> rfl

/-- The inherited page is a base of the replayed history. -/
theorem getPageWithBase_ne_notFound (hl : redo.Lawful) (r : Repository) (b : Lsn × List UInt8) :
    r.getPageWithBase redo key lsn (some b) ≠ .ok .notFound := by
  have hbase : HasBase PageVersion.isBase (r.versions key lsn (some b)) := by
    refine ⟨(b.1, .image b.2), ?_, rfl⟩
    rw [Repository.versions_base, List.mem_orderedInsert]
    exact Or.inl rfl
  have hfound := hl.found key lsn _ hbase
  unfold Repository.getPageWithBase
  rcases hr : redo.reconstruct key lsn (r.versions key lsn (some b)) with e | x | x
  · cases e <;> simp [Repository.lookupOf]
  · exact absurd hr hfound
  · simp [Repository.lookupOf]

/-- A branch that has no own base but whose parent has a page does not answer
`NotFound`. -/
theorem getPage_ne_notFound_of_parent (hl : redo.Lawful)
    (hp : p.getPage redo repos key a ≠ .ok .notFound) :
    (branched id p a).getPage redo repos key lsn ≠ .ok .notFound := by
  by_cases ho : (repos id).getPage redo key lsn = .ok .notFound
  · rw [getPage_of_notFound ho]
    obtain ⟨base, -, heq⟩ | ⟨-, heq⟩ := overPage_cases ..
    · rw [heq]
      exact getPageWithBase_ne_notFound hl _ _
    · rw [heq]
      exact hp
  · rw [getPage_of_own ho]
    exact ho

theorem getPageWithBase_size (hl : redo.Lawful) {r : Repository} {base : Option (Lsn × List UInt8)}
    {page : List UInt8} (h : r.getPageWithBase redo key lsn base = .ok (.page page)) :
    page.length = PAGE_SIZE := by
  unfold Repository.getPageWithBase at h
  rcases hr : redo.reconstruct key lsn (r.versions key lsn base) with e | q | q
  · rw [hr] at h
    cases e <;> cases h
  · rw [hr] at h
    cases h
  · rw [hr] at h
    cases h
    exact hl.size _ _ _ _ hr

theorem getPage_size (hl : redo.Lawful) {page : List UInt8} {t : Timeline}
    (h : t.getPage redo repos key lsn = .ok (.page page)) : page.length = PAGE_SIZE := by
  cases t with
  | root id => exact getPageWithBase_size hl h
  | branched id p a =>
    by_cases ho : (repos id).getPage redo key lsn = .ok .notFound
    · rw [getPage_of_notFound ho] at h
      obtain ⟨base, -, heq⟩ | ⟨hno, heq⟩ := overPage_cases ..
      · exact getPageWithBase_size hl (heq ▸ h)
      · exact absurd (heq ▸ h) (hno page)
    · rw [getPage_of_own ho] at h
      exact getPageWithBase_size hl h

/-- A branch without own versions of the page shows its parent at the branch
point. -/
theorem getPage_inherit (hl : redo.Lawful) (h : (repos id).versions key lsn none = [])
    (p : Timeline) (a : Lsn) :
    (branched id p a).getPage redo repos key lsn = p.getPage redo repos key a := by
  have hnf : (repos id).getPage redo key lsn = .ok .notFound := by
    refine (Repository.getPage_notFound_iff hl).mpr ?_
    rw [h]
    intro h
    obtain ⟨e, he, _⟩ := h
    exact List.not_mem_nil he
  rw [getPage_of_notFound hnf]
  obtain ⟨base, hp, heq⟩ | ⟨-, heq⟩ := overPage_cases ..
  · rw [heq, hp, Repository.getPageWithBase, Repository.versions_base, h, List.orderedInsert,
      hl.image _ _ _ _ (getPage_size hl hp)]
    rfl
  · exact heq

end

/-! ## Reads on two heaps -/

/-- `P` holds of every store on the chain, at the LSN at which it is read. -/
def EachRead (P : TimelineId → Lsn → Prop) : Timeline → Lsn → Prop
  | root id, lsn => P id lsn
  | branched id parent ancestorLsn, lsn => P id lsn ∧ parent.EachRead P ancestorLsn

theorem EachRead.imp {P Q : TimelineId → Lsn → Prop} (h : ∀ id lsn, P id lsn → Q id lsn) :
    ∀ {t : Timeline} {lsn : Lsn}, t.EachRead P lsn → t.EachRead Q lsn := by
  intro t
  induction t with
  | root id => exact fun hP => h _ _ hP
  | branched id p a ih => exact fun hP => ⟨h _ _ hP.1, ih hP.2⟩

theorem EachRead.of_forall {P : TimelineId → Lsn → Prop} (h : ∀ id l, P id l) :
    ∀ (t : Timeline) (lsn : Lsn), t.EachRead P lsn := by
  intro t
  induction t with
  | root id => exact fun lsn => h id lsn
  | branched id p a ih => exact fun lsn => ⟨h id lsn, ih a⟩

/-- A read is determined by each store's own answer and by what each store
replays over an inherited base. -/
theorem getPage_eq_of_sameRead {redo : WalRedoManager} {repos repos' : Stores} {key : PageKey} :
    ∀ {t : Timeline} {lsn : Lsn},
      t.EachRead (fun id l => Repository.SameRead redo (repos id) (repos' id) key l) lsn →
      t.getPage redo repos key lsn = t.getPage redo repos' key lsn := by
  intro t
  induction t with
  | root id => exact fun h => h.own
  | branched id p a ih =>
    intro lsn h
    by_cases ho : (repos' id).getPage redo key lsn = .ok .notFound
    · rw [getPage_of_notFound (h.1.own.trans ho), getPage_of_notFound ho, ih h.2]
      exact overPage_congr fun _ _ => h.1.inherited ho _
    · rw [getPage_of_own (h.1.own ▸ ho), getPage_of_own ho, h.1.own]

/-- **Pruning below the floors is invisible along the whole chain**, when every
store keeps its history down to where it is read. -/
theorem getPage_eq_of_pruned {redo : WalRedoManager} (hl : redo.Lawful)
    {floor : TimelineId → Lsn} {full pruned : Stores}
    (hrel : ∀ id, Pruned (floor id) (full id) (pruned id)) (key : PageKey) {t : Timeline}
    {lsn : Lsn} (h : t.EachRead (fun id l => floor id ≤ l) lsn) :
    t.getPage redo pruned key lsn = t.getPage redo full key lsn :=
  getPage_eq_of_sameRead <| h.imp fun id _ hle => (hrel id).sameRead hl hle

end Timeline

/-- Two ids, used by the concrete cases of later modules. -/
def mainId : TimelineId := ⟨HexId.ofByte 1⟩

def devId : TimelineId := ⟨HexId.ofByte 2⟩

end AethelDB.Pageserver
