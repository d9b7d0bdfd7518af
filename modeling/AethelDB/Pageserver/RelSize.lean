import AethelDB.Pageserver.PointInTime
import AethelDB.Lib.Run

/-!
# The relation size index

A repository keeps one size per relation fork and LSN at which something was
ingested. An ingest looks at the entry in force at its own LSN and writes the
larger of that and `block + 1` at its LSN, and touches no other entry. So a
modification that arrives late, below an entry that is already there, does not
raise that entry, and every read from there on misses it.

`highWater` is what the size should be: the largest `block + 1` among the
modifications up to the LSN. The index follows it through one more modification
exactly when that modification is `WithinLater`: it does not reach past the
high-water mark at any later LSN the relation already has an entry for
(`atHighWater_concat_iff`). Modifications in LSN order always are, and so are late ones
inside the relation as it is known.
-/

namespace AethelDB.Pageserver

open AethelDB.Lib

/-! ## Reading the index -/

namespace Repository

variable {r : Repository} {m : Modification} {rel : RelTag} {lsn : Lsn} {n : UInt32}

theorem mem_relSizes_range {e : (RelTag ×ₗ Lsn) × UInt32} :
    e ∈ OrdMap.range (toLex (rel, Lsn.INVALID)) (toLex (rel, lsn)) r.relSizes ↔
      e ∈ r.relSizes.entries ∧ (ofLex e.1).1 = rel ∧ (ofLex e.1).2 ≤ lsn := by
  rw [OrdMap.mem_range, lex_between]

/-- The size in force is the one at the greatest LSN up to `lsn`. -/
theorem getRelSize_of_last {l : Lsn} (hle : l ≤ lsn)
    (hmem : (toLex (rel, l), n) ∈ r.relSizes.entries)
    (hlast : ∀ l' n', (toLex (rel, l'), n') ∈ r.relSizes.entries → l' ≤ lsn → l' ≤ l) :
    r.getRelSize rel lsn = some n := by
  have hrange : (OrdMap.range (toLex (rel, Lsn.INVALID)) (toLex (rel, lsn)) r.relSizes).getLast?
      = some (toLex (rel, l), n) := by
    rw [OrdMap.getLast?_range_eq_some]
    refine ⟨mem_relSizes_range.mpr ⟨hmem, rfl, hle⟩, fun e he => ?_⟩
    obtain ⟨he, hrel, hlsn⟩ := mem_relSizes_range.mp he
    obtain ⟨s, n'⟩ := e
    rw [Prod.Lex.le_iff]
    refine Or.inr ⟨hrel, hlast (ofLex s).2 n' ?_ hlsn⟩
    rw [← hrel]
    exact he
  rw [getRelSize, hrange]
  rfl

theorem getRelSize_of_mem (hmem : (toLex (rel, lsn), n) ∈ r.relSizes.entries) :
    r.getRelSize rel lsn = some n :=
  getRelSize_of_last le_rfl hmem fun _ _ _ h => h

theorem exists_last_relSize {l : Lsn} (hle : l ≤ lsn)
    (hmem : (toLex (rel, l), n) ∈ r.relSizes.entries) :
    ∃ l' n', l' ≤ lsn ∧ (toLex (rel, l'), n') ∈ r.relSizes.entries ∧
      ∀ l'' n'', (toLex (rel, l''), n'') ∈ r.relSizes.entries → l'' ≤ lsn → l'' ≤ l' := by
  have hin : (toLex (rel, l), n) ∈
      OrdMap.range (toLex (rel, Lsn.INVALID)) (toLex (rel, lsn)) r.relSizes :=
    mem_relSizes_range.mpr ⟨hmem, rfl, hle⟩
  cases hlast : (OrdMap.range (toLex (rel, Lsn.INVALID)) (toLex (rel, lsn)) r.relSizes).getLast? with
  | none =>
    rw [List.getLast?_eq_none_iff.mp hlast] at hin
    nomatch hin
  | some e =>
    obtain ⟨s, n'⟩ := e
    obtain ⟨hs, hmax⟩ := OrdMap.getLast?_range_eq_some.mp hlast
    obtain ⟨hs, hrel, hlsn⟩ := mem_relSizes_range.mp hs
    refine ⟨(ofLex s).2, n', hlsn, ?_, fun l'' n'' hmem'' hle'' => ?_⟩
    · rw [← hrel]
      exact hs
    · have hbelow := hmax _ (mem_relSizes_range.mpr ⟨hmem'', rfl, hle''⟩)
      rw [Prod.Lex.le_iff] at hbelow
      rcases hbelow with hlt | ⟨-, hbelow⟩
      · exact absurd hrel.symm (ne_of_lt hlt)
      · exact hbelow

/-! ## One modification -/

theorem mem_relSizes_ingestOne {e : (RelTag ×ₗ Lsn) × UInt32} :
    e ∈ (r.ingestOne m).relSizes.entries ↔
      e = (toLex (m.rel, m.lsn), max ((r.getRelSize m.rel m.lsn).getD 0) (m.block + 1)) ∨
        e ∈ r.relSizes.entries ∧ e.1 ≠ toLex (m.rel, m.lsn) := by
  -- an entry that is already there is the size so far
  have hslot : max ((OrdMap.lookup (toLex (m.rel, m.lsn)) r.relSizes).getD 0)
      (max ((r.getRelSize m.rel m.lsn).getD 0) (m.block + 1))
      = max ((r.getRelSize m.rel m.lsn).getD 0) (m.block + 1) := by
    rw [← UInt32.toNat_inj]
    simp only [UInt32.toNat_max]
    cases hlookup : OrdMap.lookup (toLex (m.rel, m.lsn)) r.relSizes with
    | none => exact Nat.zero_max _
    | some n =>
      rw [getRelSize_of_mem (OrdMap.lookup_eq_some_iff.mp hlookup)]
      simp only [Option.getD_some]
      omega
  rw [AgreeUpTo.relSizes_ingestOne, trackRelSize, OrdMap.mem_insert, hslot]

theorem getRelSize_ingestOne_of_ne (hne : rel ≠ m.rel) (lsn : Lsn) :
    (r.ingestOne m).getRelSize rel lsn = r.getRelSize rel lsn := by
  unfold getRelSize
  congr 2
  refine OrdMap.eq_of_mem_iff (OrdMap.range_sorted _ _ _) (OrdMap.range_sorted _ _ _) fun e => ?_
  rw [mem_relSizes_range, mem_relSizes_range, mem_relSizes_ingestOne]
  refine and_congr_left fun h => ⟨fun hmem => ?_, fun hmem => Or.inr ⟨hmem, fun heq => ?_⟩⟩
  · rcases hmem with heq | hmem
    · exact absurd (h.1.symm.trans (congrArg (fun e => (ofLex e.1).1) heq)) hne
    · exact hmem.1
  · exact hne (h.1.symm.trans (congrArg (fun s => (ofLex s).1) heq))

/-- Reads below the modification do not see it. -/
theorem getRelSize_ingestOne_of_lt (hlt : lsn < m.lsn) (rel : RelTag) :
    (r.ingestOne m).getRelSize rel lsn = r.getRelSize rel lsn :=
  (AgreeUpTo.relSizes_future (not_le.mpr hlt) fun _ _ _ _ => Iff.rfl).getRelSize_eq le_rfl rel

/-- Neither do reads that an entry above it decides. -/
theorem getRelSize_ingestOne_of_later {l : Lsn} (hlt : m.lsn < l) (hle : l ≤ lsn)
    (hmem : (toLex (m.rel, l), n) ∈ r.relSizes.entries) :
    (r.ingestOne m).getRelSize m.rel lsn = r.getRelSize m.rel lsn := by
  obtain ⟨last, size, hle', hlast, hmax⟩ := exists_last_relSize hle hmem
  have hlt' : m.lsn < last := hlt.trans_le (hmax l n hmem hle)
  have hne : toLex (m.rel, last) ≠ toLex (m.rel, m.lsn) := fun h =>
    ne_of_gt hlt' (congrArg (fun s => (ofLex s).2) h)
  rw [getRelSize_of_last hle' hlast hmax]
  refine getRelSize_of_last hle' (mem_relSizes_ingestOne.mpr (Or.inr ⟨hlast, hne⟩)) ?_
  intro l'' n'' hmem'' hle''
  rcases mem_relSizes_ingestOne.mp hmem'' with heq | ⟨hmem'', -⟩
  · rw [show l'' = m.lsn from congrArg (fun e => (ofLex e.1).2) heq]
    exact hlt'.le
  · exact hmax l'' n'' hmem'' hle''

/-- Elsewhere from its LSN on, the modification counts. -/
theorem getRelSize_ingestOne_of_last (hle : m.lsn ≤ lsn)
    (hlast : ∀ l n, (toLex (m.rel, l), n) ∈ r.relSizes.entries → l ≤ lsn → l ≤ m.lsn) :
    (r.ingestOne m).getRelSize m.rel lsn
      = some (max ((r.getRelSize m.rel m.lsn).getD 0) (m.block + 1)) := by
  refine getRelSize_of_last hle (mem_relSizes_ingestOne.mpr (Or.inl rfl)) fun l n hmem hle => ?_
  rcases mem_relSizes_ingestOne.mp hmem with heq | ⟨hmem, -⟩
  · exact (congrArg (fun e => (ofLex e.1).2) heq).le
  · exact hlast l n hmem hle

/-! ## Runs -/

theorem ingest_concat (r : Repository) (mods : List Modification) (m : Modification) :
    r.ingest (mods ++ [m]) = (r.ingest mods).ingestOne m := by
  rw [ingest, List.foldl_append]
  rfl

/-- Entries stand exactly at the LSNs of the modifications. -/
theorem exists_relSizes_iff (n : Nat) {mods : List Modification} {l : Lsn} :
    (∃ size, (toLex (rel, l), size) ∈ ((Repository.new n).ingest mods).relSizes.entries) ↔
      ∃ m ∈ mods, m.rel = rel ∧ m.lsn = l := by
  induction mods using List.reverseRecOn with
  | nil => simp [ingest, Repository.new]
  | append_singleton mods m ih =>
    rw [ingest_concat]
    simp only [mem_relSizes_ingestOne, List.mem_append, List.mem_singleton]
    constructor
    · rintro ⟨size, heq | ⟨hmem, -⟩⟩
      · have hslot := congrArg (fun e => ofLex e.1) heq
        exact ⟨m, Or.inr rfl, (congrArg Prod.fst hslot).symm, (congrArg Prod.snd hslot).symm⟩
      · obtain ⟨m', hm', h⟩ := ih.mp ⟨size, hmem⟩
        exact ⟨m', Or.inl hm', h⟩
    · rintro ⟨m', hm', rfl, rfl⟩
      by_cases hslot : toLex (m'.rel, m'.lsn) = toLex (m.rel, m.lsn)
      · exact ⟨_, Or.inl (Prod.ext hslot rfl)⟩
      · have hm' := hm'.resolve_right fun h => hslot (by rw [h])
        obtain ⟨size, hmem⟩ := ih.mpr ⟨m', hm', rfl, rfl⟩
        exact ⟨size, Or.inr ⟨hmem, hslot⟩⟩

theorem mem_mods_of_mem_contents {e : Slot × PageVersion} :
    ∀ {mods : List Modification} {r : Repository}, e ∈ (r.ingest mods).contents →
      e ∈ r.contents ∨ e ∈ mods.map Modification.entry := by
  intro mods
  induction mods with
  | nil => exact fun h => Or.inl h
  | cons m mods ih =>
    intro r h
    rw [List.map_cons, List.mem_cons]
    rcases ih (r := r.ingestOne m) h with h | h
    · have hins : e ∈ ((r.trackRelSize m).insertVersion m).contents := by
        simp only [ingestOne] at h
        split at h
        · exact (contents_freezeLocked _).mem_iff.mp h
        · exact h
      rcases List.mem_append.mp hins with hins | hins
      · rcases OrdMap.mem_insert.mp hins with heq | ⟨hmem, -⟩
        · exact Or.inr (Or.inl heq)
        · exact Or.inl (List.mem_append_left _ hmem)
      · exact Or.inl (List.mem_append_right _ hins)
    · exact Or.inr (Or.inr h)

end Repository

/-! ## The high-water mark -/

variable {mods : List Modification} {rel : RelTag}

theorem max?_concat {α : Type} [Max α] (xs : List α) (x : α) :
    (xs ++ [x]).max? = some (xs.max?.elim x (max · x)) := by
  cases xs with
  | nil => rfl
  | cons a xs =>
    show some ((xs ++ [x]).foldl max a) = _
    rw [List.foldl_append]
    rfl

theorem max?_map {α β : Type} [Max α] [Max β] {f : α → β}
    (hf : ∀ a b, max (f a) (f b) = f (max a b)) (xs : List α) :
    (xs.map f).max? = xs.max?.map f := by
  cases xs with
  | nil => rfl
  | cons a xs =>
    show some ((xs.map f).foldl max (f a)) = some (f (xs.foldl max a))
    rw [List.foldl_map]
    exact congrArg some (List.foldl_hom f fun a b => hf a b)

/-- The largest `block + 1` among the modifications of `rel` up to `lsn`. -/
def highWater (mods : List Modification) (rel : RelTag) (lsn : Lsn) : Option Nat :=
  ((mods.filter fun m => decide (m.rel = rel ∧ m.lsn ≤ lsn)).map fun m => m.block.toNat + 1).max?

theorem highWater_eq_some_iff {lsn : Lsn} {n : Nat} :
    highWater mods rel lsn = some n ↔
      (∃ m ∈ mods, m.rel = rel ∧ m.lsn ≤ lsn ∧ m.block.toNat + 1 = n) ∧
        ∀ m ∈ mods, m.rel = rel → m.lsn ≤ lsn → m.block.toNat + 1 ≤ n := by
  rw [highWater, List.max?_eq_some_iff]
  simp only [List.mem_map, List.mem_filter, decide_eq_true_iff, and_assoc]
  refine and_congr_right fun _ => ⟨fun h m hm hrel hle => h _ ⟨m, hm, hrel, hle, rfl⟩, ?_⟩
  rintro h _ ⟨m, hm, hrel, hle, rfl⟩
  exact h m hm hrel hle

theorem highWater_concat (mods : List Modification) (m : Modification) (rel : RelTag) (lsn : Lsn) :
    highWater (mods ++ [m]) rel lsn
      = if m.rel = rel ∧ m.lsn ≤ lsn then
          some (max ((highWater mods rel lsn).getD 0) (m.block.toNat + 1))
        else highWater mods rel lsn := by
  rw [highWater, List.filter_append, List.map_append]
  split
  · next h =>
    rw [List.filter_cons_of_pos (by simpa using h), List.filter_nil, List.map_singleton,
      max?_concat, ← highWater]
    cases highWater mods rel lsn <;> simp
  · next h =>
    rw [List.filter_cons_of_neg (by simpa using h), List.filter_nil, List.map_nil, List.append_nil]
    rfl

/-- The mark never falls as the LSN grows. -/
theorem highWater_mono {l l' : Lsn} (hle : l ≤ l') {n : Nat} (h : highWater mods rel l = some n) :
    ∃ n', highWater mods rel l' = some n' ∧ n ≤ n' := by
  obtain ⟨⟨m, hm, hrel, hlsn, hn⟩, -⟩ := highWater_eq_some_iff.mp h
  cases h' : highWater mods rel l' with
  | none =>
    rw [highWater, List.max?_eq_none_iff, List.map_eq_nil_iff, List.filter_eq_nil_iff] at h'
    exact absurd (decide_eq_true ⟨hrel, hlsn.trans hle⟩) (h' m hm)
  | some n' =>
    refine ⟨n', rfl, ?_⟩
    rw [← hn]
    exact (highWater_eq_some_iff.mp h').2 m hm hrel (hlsn.trans hle)

/-- It stays the same where the relation has no modification. -/
theorem highWater_eq_of_gap {l l' : Lsn} (hle : l ≤ l')
    (hgap : ∀ m ∈ mods, m.rel = rel → m.lsn ≤ l' → m.lsn ≤ l) :
    highWater mods rel l' = highWater mods rel l := by
  unfold highWater
  congr 2
  refine List.filter_congr fun m hm => ?_
  rw [decide_eq_decide]
  exact and_congr_right fun hrel => ⟨hgap m hm hrel, fun h => h.trans hle⟩

/-! ## When the index is the high-water mark -/

/-- A modification that does not reach past the high-water mark at any later LSN
its relation already has. -/
def WithinLater (pre : List Modification) (m : Modification) : Prop :=
  ∀ m' ∈ pre, m'.rel = m.rel → m.lsn < m'.lsn →
    m.block.toNat + 1 ≤ (highWater pre m.rel m'.lsn).getD 0

instance (pre : List Modification) (m : Modification) : Decidable (WithinLater pre m) :=
  inferInstanceAs (Decidable (∀ m' ∈ pre, _ → _ → _))

/-- After `mods` the index is the high-water mark, for every relation and LSN. -/
def AtHighWater (n : Nat) (mods : List Modification) : Prop :=
  ∀ rel lsn, (((Repository.new n).ingest mods).getRelSize rel lsn).map UInt32.toNat
    = highWater mods rel lsn

/-- **One more modification.** The index follows it exactly when it is within what
later entries say. -/
theorem atHighWater_concat_iff {n : Nat} {m : Modification} (h : AtHighWater n mods)
    (hblock : m.block.toNat + 1 < 2 ^ 32) : AtHighWater n (mods ++ [m]) ↔ WithinLater mods m := by
  have hsucc : (m.block + 1).toNat = m.block.toNat + 1 := by
    rw [UInt32.toNat_add]
    exact Nat.mod_eq_of_lt hblock
  have hentry : ∀ {l : Lsn}, (∃ size, (toLex (m.rel, l), size) ∈
      ((Repository.new n).ingest mods).relSizes.entries) ↔ ∃ m' ∈ mods, m'.rel = m.rel ∧ m'.lsn = l :=
    Repository.exists_relSizes_iff n
  constructor
  · intro hnext m' hm' hrel hlt
    obtain ⟨size, hmem⟩ := hentry.mpr ⟨m', hm', hrel, rfl⟩
    have hread := hnext m.rel m'.lsn
    rw [Repository.ingest_concat, Repository.getRelSize_ingestOne_of_later hlt le_rfl hmem, h,
      highWater_concat, if_pos ⟨rfl, hlt.le⟩] at hread
    rw [hread, Option.getD_some]
    exact Nat.le_max_right _ _
  · intro hwithin rel lsn
    rw [Repository.ingest_concat, highWater_concat]
    by_cases hcounts : m.rel = rel ∧ m.lsn ≤ lsn
    · obtain ⟨rfl, hle⟩ := hcounts
      rw [if_pos ⟨rfl, hle⟩]
      by_cases hlater : ∃ m' ∈ mods, m'.rel = m.rel ∧ m.lsn < m'.lsn ∧ m'.lsn ≤ lsn
      · -- a later entry decides, and covers the block already
        obtain ⟨m', hm', hrel, hlt, hle'⟩ := hlater
        obtain ⟨size, hmem⟩ := hentry.mpr ⟨m', hm', hrel, rfl⟩
        rw [Repository.getRelSize_ingestOne_of_later hlt hle' hmem, h]
        have hcover := hwithin m' hm' hrel hlt
        cases hw : highWater mods m.rel m'.lsn with
        | none =>
          rw [hw] at hcover
          simp at hcover
        | some mark =>
          obtain ⟨mark', hw', hmono⟩ := highWater_mono hle' hw
          rw [hw, Option.getD_some] at hcover
          rw [hw', Option.getD_some, max_eq_left (hcover.trans hmono)]
      · have hlast : ∀ m' ∈ mods, m'.rel = m.rel → m'.lsn ≤ lsn → m'.lsn ≤ m.lsn :=
          fun m' hm' hrel hle' => not_lt.mp fun hlt => hlater ⟨m', hm', hrel, hlt, hle'⟩
        rw [Repository.getRelSize_ingestOne_of_last hle fun l size hmem hle' => ?_,
          highWater_eq_of_gap hle hlast, ← h, Option.map_some, UInt32.toNat_max, hsucc]
        · cases ((Repository.new n).ingest mods).getRelSize m.rel m.lsn <;> rfl
        · obtain ⟨m', hm', hrel, rfl⟩ := hentry.mp ⟨size, hmem⟩
          exact hlast m' hm' hrel hle'
    · rw [if_neg hcounts, ← h]
      congr 1
      by_cases hrel : rel = m.rel
      · exact Repository.getRelSize_ingestOne_of_lt
          (not_le.mp fun hle => hcounts ⟨hrel.symm, hle⟩) rel
      · exact Repository.getRelSize_ingestOne_of_ne hrel lsn

theorem atHighWater_of_along (n : Nat) (hblocks : ∀ m ∈ mods, m.block.toNat + 1 < 2 ^ 32)
    (h : Along WithinLater mods) : AtHighWater n mods := by
  induction mods using List.reverseRecOn with
  | nil => exact fun rel lsn => rfl
  | append_singleton mods m ih =>
    obtain ⟨hmods, hm⟩ := along_concat.mp h
    have hbefore := ih (fun m' hm' => hblocks m' (List.mem_append_left _ hm')) hmods
    exact (atHighWater_concat_iff hbefore (hblocks m (by simp))).mpr hm

/-- Where the index is the high-water mark it covers every page that is found. -/
theorem AtHighWater.covers {n : Nat} (h : AtHighWater n mods) {redo : WalRedoManager}
    (hl : redo.Lawful) {key : PageKey} {lsn : Lsn} {page : List UInt8}
    (hfound : ((Repository.new n).ingest mods).getPage redo key lsn = .ok (.page page)) :
    ∃ size, ((Repository.new n).ingest mods).getRelSize key.rel lsn = some size ∧ key.block < size := by
  have hbase : HasBase PageVersion.isBase
      (((Repository.new n).ingest mods).versions key lsn none) := by
    by_contra hno
    rw [(Repository.getPage_notFound_iff hl).mpr hno] at hfound
    simp at hfound
  obtain ⟨e, he, -⟩ := hbase
  obtain ⟨hmem, hle⟩ := Repository.mem_versions.mp he
  have hmods := (Repository.mem_mods_of_mem_contents hmem).resolve_left List.not_mem_nil
  obtain ⟨m, hm, hentry⟩ := List.mem_map.mp hmods
  have hslot : m.key = key ∧ m.lsn = e.1 := by
    have h := congrArg (fun e => ofLex e.1) hentry
    exact ⟨congrArg Prod.fst h, congrArg Prod.snd h⟩
  obtain ⟨rfl, hlsn⟩ := hslot
  -- the page is one of those the mark is taken over
  have hread := h m.key.rel lsn
  cases hw : highWater mods m.key.rel lsn with
  | none =>
    rw [highWater, List.max?_eq_none_iff, List.map_eq_nil_iff, List.filter_eq_nil_iff] at hw
    exact absurd (decide_eq_true ⟨rfl, hlsn.le.trans hle⟩) (hw m hm)
  | some mark =>
    rw [hw] at hread
    obtain ⟨size, hsize, rfl⟩ := Option.map_eq_some_iff.mp hread
    refine ⟨size, hsize, ?_⟩
    rw [UInt32.lt_iff_toNat_lt]
    exact (highWater_eq_some_iff.mp hw).2 m hm rfl (hlsn.le.trans hle)

theorem AtHighWater.mono {n : Nat} (h : AtHighWater n mods) {l l' : Lsn} (hle : l ≤ l')
    {size : UInt32} (hsize : ((Repository.new n).ingest mods).getRelSize rel l = some size) :
    ∃ size', ((Repository.new n).ingest mods).getRelSize rel l' = some size' ∧ size ≤ size' := by
  have hread := h rel l
  rw [hsize, Option.map_some] at hread
  obtain ⟨mark, hw, hmono⟩ := highWater_mono hle hread.symm
  have hread' := h rel l'
  rw [hw] at hread'
  obtain ⟨size', hsize', rfl⟩ := Option.map_eq_some_iff.mp hread'
  exact ⟨size', hsize', UInt32.le_iff_toNat_le.mpr hmono⟩

/-- **Relation size as high-water mark.** Throughout a sequence of ingested
modifications with blocks below `u32::MAX` the size index is the high-water mark
exactly when no modification reaches past the mark at a later LSN that its relation
already has. It then never decreases with the LSN and covers every block for which a
page is found. -/
theorem getRelSize_eq_highWater_iff (freezeThreshold : Nat) (mods : List Modification)
    (hblocks : ∀ m ∈ mods, m.block.toNat + 1 < 2 ^ 32) :
    ((∀ pre, pre <+: mods → ∀ rel lsn,
        (((Repository.new freezeThreshold).ingest pre).getRelSize rel lsn).map UInt32.toNat
          = highWater pre rel lsn) ↔ Along WithinLater mods) ∧
      (Along WithinLater mods →
        (∀ rel l l' size, l ≤ l' →
          ((Repository.new freezeThreshold).ingest mods).getRelSize rel l = some size →
          ∃ size', ((Repository.new freezeThreshold).ingest mods).getRelSize rel l' = some size' ∧
            size ≤ size') ∧
        ∀ redo : WalRedoManager, redo.Lawful → ∀ key lsn page,
          ((Repository.new freezeThreshold).ingest mods).getPage redo key lsn = .ok (.page page) →
          ∃ size, ((Repository.new freezeThreshold).ingest mods).getRelSize key.rel lsn = some size ∧
            key.block < size) := by
  refine ⟨⟨fun h pre m post hsplit => ?_, fun h pre hpre => ?_⟩, fun h => ?_⟩
  · subst hsplit
    have hnext : pre ++ [m] <+: pre ++ m :: post :=
      List.prefix_append_right_inj pre |>.mpr ⟨post, rfl⟩
    exact (atHighWater_concat_iff (h pre (List.prefix_append _ _)) (hblocks m (by simp))).mp (h _ hnext)
  · obtain ⟨post, rfl⟩ := hpre
    exact atHighWater_of_along freezeThreshold (fun m hm => hblocks m (List.mem_append_left _ hm))
      h.of_append
  · have hmark := atHighWater_of_along freezeThreshold hblocks h
    exact ⟨fun rel l l' size hle => hmark.mono hle, fun redo hl key lsn page => hmark.covers hl⟩

/-- Blocks ingested in order, and one late write below the mark. -/
theorem getRelSize_eq_highWater_iff_sample :
    Along WithinLater [⟨relSample, 4, 10, .delta []⟩, ⟨relSample, 2, 5, .delta []⟩] ∧
    ∀ rel lsn, (((Repository.new 8).ingest
      [⟨relSample, 4, 10, .delta []⟩, ⟨relSample, 2, 5, .delta []⟩]).getRelSize rel lsn).map
        UInt32.toNat
      = highWater [⟨relSample, 4, 10, .delta []⟩, ⟨relSample, 2, 5, .delta []⟩] rel lsn := by
  refine ⟨by decide, ?_⟩
  exact (getRelSize_eq_highWater_iff 8 [⟨relSample, 4, 10, .delta []⟩, ⟨relSample, 2, 5, .delta []⟩]
    (by decide)).1.mpr (by decide) _ (List.prefix_refl _)

/-- Block 0 at LSN 10, then block 9 at LSN 5: the index says one block at LSN 10,
and ten at LSN 5. -/
theorem getRelSize_misses_late_block :
    ((Repository.new 8).ingest
      [⟨relSample, 0, 10, .delta []⟩, ⟨relSample, 9, 5, .delta []⟩]).getRelSize relSample 10 = some 1 ∧
    ((Repository.new 8).ingest
      [⟨relSample, 0, 10, .delta []⟩, ⟨relSample, 9, 5, .delta []⟩]).getRelSize relSample 5 = some 10 ∧
    highWater [⟨relSample, 0, 10, .delta []⟩, ⟨relSample, 9, 5, .delta []⟩] relSample 10 = some 10 := by
  decide

end AethelDB.Pageserver
