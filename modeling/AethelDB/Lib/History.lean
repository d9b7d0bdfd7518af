import AethelDB.Lib.OrdMap

/-!
# Version histories and their replay

A *history* is a list of versions of one object, each tagged with the position
(in some linear order) at which it took effect. Some versions are *bases*: they
determine the object on their own. The others only make sense on top of what
came before. Reading the object means starting at the latest base and applying
every later version in order.

The file has three parts.

* `byPos` puts a history in position order. Histories whose positions are
  pairwise distinct have one sorted form, whatever order they arrived in
  (`byPos_congr`); in general the versions at each position keep their order
  and nothing else matters (`byPos_eq_of_fibers`). Where the versions at one
  position are copies, a function that ignores repetition depends only on which
  versions there are (`eq_of_agreeing`).
* `latest` splits a history at its latest base. Everything a reader may use is
  in that split, so two facts about it carry all pruning arguments: a suffix
  that has a base decides alone (`latest_append_of_base`), and versions
  shadowed by a retained base may be dropped (`latest_filter`).
* `replay` runs the split. Over a suffix without bases it continues from the
  object reached so far (`replay_append`).
-/

namespace AethelDB.Lib

universe u v w

variable {L : Type u} {V : Type v}

/-! ## Histories in position order -/

section Order

variable [LinearOrder L] {xs ys : List (L × V)}

/-- Strictly increasing in position. -/
def Ordered (xs : List (L × V)) : Prop := xs.Pairwise (fun a b => a.1 < b.1)

/-- Stable sort of a history by position. -/
def byPos (xs : List (L × V)) : List (L × V) :=
  xs.insertionSort (fun a b => a.1 ≤ b.1)

instance byPos_total : Std.Total (fun a b : L × V => a.1 ≤ b.1) := ⟨fun a b => le_total a.1 b.1⟩

instance byPos_trans : IsTrans (L × V) (fun a b => a.1 ≤ b.1) := ⟨fun _ _ _ => le_trans⟩

theorem byPos_perm (xs : List (L × V)) : (byPos xs).Perm xs := List.perm_insertionSort _ xs

@[simp] theorem mem_byPos {e : L × V} : e ∈ byPos xs ↔ e ∈ xs :=
  (byPos_perm xs).mem_iff

/-- Distinct positions sort strictly. -/
theorem byPos_ordered (hnd : (xs.map Prod.fst).Nodup) : Ordered (byPos xs) := by
  have hle : (byPos xs).Pairwise (fun a b => a.1 ≤ b.1) := List.pairwise_insertionSort _ xs
  have hnd' : ((byPos xs).map Prod.fst).Nodup := ((byPos_perm xs).map Prod.fst).nodup_iff.mpr hnd
  rw [List.Nodup, List.pairwise_map] at hnd'
  exact (hle.and hnd').imp (fun h => lt_of_le_of_ne h.1 h.2)

/-- The sorted form depends only on the set of versions. -/
theorem byPos_congr (hx : (xs.map Prod.fst).Nodup) (h : xs.Perm ys) : byPos xs = byPos ys :=
  OrdMap.eq_of_mem_iff (byPos_ordered hx) (byPos_ordered ((h.map Prod.fst).nodup_iff.mp hx))
    (fun e => by rw [mem_byPos, mem_byPos, h.mem_iff])

/-- The versions at one position, in the order of the history. -/
def fiber (p : L) (xs : List (L × V)) : List (L × V) := xs.filter fun e => decide (e.1 = p)

theorem fiber_cons_pos {p : L} {x : L × V} (h : x.1 = p) (xs : List (L × V)) :
    fiber p (x :: xs) = x :: fiber p xs := by simp [fiber, h]

theorem fiber_cons_neg {p : L} {x : L × V} (h : x.1 ≠ p) (xs : List (L × V)) :
    fiber p (x :: xs) = fiber p xs := by simp [fiber, h]

theorem mem_fiber {p : L} {e : L × V} : e ∈ fiber p xs ↔ e ∈ xs ∧ e.1 = p := by
  simp [fiber]

/-- Insertion is stable: among versions at one position the new one comes
first and the others keep their order. -/
theorem fiber_orderedInsert (p : L) (x : L × V) :
    ∀ ys : List (L × V),
      fiber p (List.orderedInsert (fun a b => a.1 ≤ b.1) x ys) = fiber p (x :: ys) := by
  intro ys
  induction ys with
  | nil => rfl
  | cons y ys ih =>
    by_cases hxy : x.1 ≤ y.1
    · rw [List.orderedInsert_cons_of_le (fun a b => a.1 ≤ b.1) ys hxy]
    · rw [List.orderedInsert_of_not_le (fun a b => a.1 ≤ b.1) ys hxy]
      by_cases hx : x.1 = p
      · -- `x` moves past `y` only from another position
        have hy : y.1 ≠ p := fun hy => hxy (by rw [hx, hy])
        rw [fiber_cons_neg hy, ih, fiber_cons_pos hx, fiber_cons_pos hx, fiber_cons_neg hy]
      · rw [fiber_cons_neg hx]
        by_cases hy : y.1 = p
        · rw [fiber_cons_pos hy, fiber_cons_pos hy, ih, fiber_cons_neg hx]
        · rw [fiber_cons_neg hy, fiber_cons_neg hy, ih, fiber_cons_neg hx]

theorem fiber_byPos (p : L) (xs : List (L × V)) : fiber p (byPos xs) = fiber p xs := by
  induction xs with
  | nil => rfl
  | cons x xs ih =>
    show fiber p (List.orderedInsert _ x (byPos xs)) = _
    rw [fiber_orderedInsert]
    by_cases hx : x.1 = p
    · rw [fiber_cons_pos hx, fiber_cons_pos hx, ih]
    · rw [fiber_cons_neg hx, fiber_cons_neg hx, ih]

/-- Sorted histories with equal fibers are equal. -/
theorem sorted_ext_of_fibers :
    ∀ {xs ys : List (L × V)}, xs.Pairwise (fun a b => a.1 ≤ b.1) →
      ys.Pairwise (fun a b => a.1 ≤ b.1) → (∀ p, fiber p xs = fiber p ys) → xs = ys := by
  have hmem : ∀ {xs ys : List (L × V)}, (∀ p, fiber p xs = fiber p ys) → ∀ e ∈ xs, e ∈ ys := by
    intro xs ys h e he
    have hf : e ∈ fiber e.1 xs := mem_fiber.mpr ⟨he, rfl⟩
    rw [h] at hf
    exact (mem_fiber.mp hf).1
  intro xs
  induction xs with
  | nil =>
    intro ys _ _ h
    cases ys with
    | nil => rfl
    | cons y ys =>
      exact absurd (hmem (fun p => (h p).symm) y (List.mem_cons_self ..)) List.not_mem_nil
  | cons x xs ih =>
    intro ys hx hy h
    cases ys with
    | nil => exact absurd (hmem h x (List.mem_cons_self ..)) List.not_mem_nil
    | cons y ys =>
      -- each head is in the other list, so neither position is below the other
      have hxy : x.1 ≤ y.1 := by
        rcases List.mem_cons.mp (hmem (fun p => (h p).symm) y (List.mem_cons_self ..)) with hm | hm
        · rw [hm]
        · exact (List.pairwise_cons.mp hx).1 y hm
      have hyx : y.1 ≤ x.1 := by
        rcases List.mem_cons.mp (hmem h x (List.mem_cons_self ..)) with hm | hm
        · rw [hm]
        · exact (List.pairwise_cons.mp hy).1 x hm
      have hpos : y.1 = x.1 := le_antisymm hyx hxy
      -- the fiber at that position then starts with both heads
      have hhead := h x.1
      rw [fiber_cons_pos rfl, fiber_cons_pos hpos] at hhead
      obtain ⟨rfl, htail⟩ := List.cons.inj hhead
      congr 1
      refine ih (List.pairwise_cons.mp hx).2 (List.pairwise_cons.mp hy).2 ?_
      intro p
      by_cases hp : x.1 = p
      · rw [← hp]
        exact htail
      · have hrest := h p
        rw [fiber_cons_neg hp, fiber_cons_neg hp] at hrest
        exact hrest

/-- Restricting to positions commutes with sorting, also where positions repeat. -/
theorem byPos_filter_pos (q : L → Bool) (xs : List (L × V)) :
    byPos (xs.filter fun e => q e.1) = (byPos xs).filter fun e => q e.1 := by
  have hfiber : ∀ (p : L) (ys : List (L × V)),
      fiber p (ys.filter fun e => q e.1) = if q p then fiber p ys else [] := by
    intro p ys
    unfold fiber
    rw [List.filter_filter]
    split
    · next hq =>
      refine List.filter_congr ?_
      intro e _
      by_cases he : e.1 = p
      · simp [he, hq]
      · simp [he]
    · next hq =>
      rw [List.filter_eq_nil_iff]
      intro e _
      by_cases he : e.1 = p
      · simp [he, hq]
      · simp [he]
  refine sorted_ext_of_fibers (List.pairwise_insertionSort _ _)
    ((List.pairwise_insertionSort _ xs).filter _) ?_
  intro p
  rw [fiber_byPos, hfiber, hfiber, fiber_byPos]

/-- Changing versions in place commutes with sorting. -/
theorem byPos_map (g : L × V → V) (xs : List (L × V)) :
    byPos (xs.map fun e => (e.1, g e)) = (byPos xs).map fun e => (e.1, g e) := by
  have hinsert : ∀ (x : L × V) (ys : List (L × V)),
      List.orderedInsert (fun a b => a.1 ≤ b.1) (x.1, g x) (ys.map fun e => (e.1, g e))
        = (List.orderedInsert (fun a b => a.1 ≤ b.1) x ys).map fun e => (e.1, g e) := by
    intro x ys
    induction ys with
    | nil => rfl
    | cons y ys ih =>
      simp only [List.map_cons, List.orderedInsert]
      split
      · rfl
      · rw [ih, List.map_cons]
  induction xs with
  | nil => rfl
  | cons x xs ih =>
    show List.orderedInsert _ (x.1, g x) (byPos (xs.map fun e => (e.1, g e))) = _
    rw [ih, hinsert]
    rfl

/-! ### Sorting by a key -/

/-- Stable sort by a key. -/
def sortOn {α : Type v} (key : α → L) (xs : List α) : List α :=
  (byPos (xs.map fun x => (key x, x))).map Prod.snd

theorem sortOn_perm {α : Type v} (key : α → L) (xs : List α) : (sortOn key xs).Perm xs := by
  have h := (byPos_perm (xs.map fun x => (key x, x))).map Prod.snd
  rwa [List.map_map, show Prod.snd ∘ (fun x : α => (key x, x)) = id from rfl, List.map_id] at h

/-- Under distinct keys the sorted form depends only on the set of entries. -/
theorem sortOn_congr {α : Type v} {key : α → L} {xs ys : List α} (hx : (xs.map key).Nodup)
    (h : xs.Perm ys) : sortOn key xs = sortOn key ys := by
  unfold sortOn
  rw [byPos_congr (by rwa [List.map_map]) (h.map _)]

/-- Changing entries without their keys commutes with sorting. -/
theorem sortOn_map {α : Type v} {key : α → L} {f : α → α} (hf : ∀ x, key (f x) = key x)
    (xs : List α) : sortOn key (xs.map f) = (sortOn key xs).map f := by
  have hpairs : (xs.map f).map (fun x => (key x, x))
      = (xs.map fun x => (key x, x)).map fun e => (e.1, f e.2) := by
    simp only [List.map_map, Function.comp_def, hf]
  unfold sortOn
  rw [hpairs, byPos_map (fun e => f e.2)]
  simp only [List.map_map, Function.comp_def]

/-- Where a version lands in a sorted history: in front of everything at or
above its position. -/
theorem orderedInsert_split {x : L × V} :
    ∀ {ys : List (L × V)}, ys.Pairwise (fun a b => a.1 ≤ b.1) →
      ∃ pre, ys = pre ++ ys.filter (fun e => decide (x.1 ≤ e.1)) ∧
        List.orderedInsert (fun a b => a.1 ≤ b.1) x ys
          = pre ++ x :: ys.filter (fun e => decide (x.1 ≤ e.1)) := by
  intro ys
  induction ys with
  | nil => exact fun _ => ⟨[], rfl, rfl⟩
  | cons y ys ih =>
    intro hs
    have hs' := List.pairwise_cons.mp hs
    by_cases hxy : x.1 ≤ y.1
    -- sortedness: from the first element at or above `x` on, all are
    · have hall : (y :: ys).filter (fun e => decide (x.1 ≤ e.1)) = y :: ys := by
        rw [List.filter_eq_self]
        intro e he
        rcases List.mem_cons.mp he with rfl | he
        · exact decide_eq_true hxy
        · exact decide_eq_true (hxy.trans (hs'.1 e he))
      refine ⟨[], by rw [hall]; rfl, ?_⟩
      rw [hall, List.orderedInsert_cons_of_le (fun a b => a.1 ≤ b.1) ys hxy]
      rfl
    · obtain ⟨pre, hpre, hins⟩ := ih hs'.2
      have hskip : (y :: ys).filter (fun e => decide (x.1 ≤ e.1))
          = ys.filter (fun e => decide (x.1 ≤ e.1)) := by
        rw [List.filter_cons, if_neg (by simpa using hxy)]
      refine ⟨y :: pre, ?_, ?_⟩
      · rw [hskip, List.cons_append, ← hpre]
      · rw [hskip, List.orderedInsert_of_not_le (fun a b => a.1 ≤ b.1) ys hxy, hins]
        rfl

/-- **A stable sort is determined by its fibers.** -/
theorem byPos_eq_of_fibers (h : ∀ p, fiber p xs = fiber p ys) : byPos xs = byPos ys :=
  sorted_ext_of_fibers (List.pairwise_insertionSort _ xs) (List.pairwise_insertionSort _ ys)
    (fun p => by rw [fiber_byPos, fiber_byPos, h p])

/-! ### Repeated versions -/

/-- The versions at one position are copies of each other. -/
def Agreeing (xs : List (L × V)) : Prop := ∀ a ∈ xs, ∀ b ∈ xs, a.1 = b.1 → a = b

omit [LinearOrder L] in
theorem Agreeing.of_sub (h : Agreeing ys) (hsub : ∀ e ∈ xs, e ∈ ys) : Agreeing xs :=
  fun a ha b hb => h a (hsub a ha) b (hsub b hb)

/-- Copies sort to one form, whatever order they arrived in. -/
theorem byPos_eq_of_agreeing (hx : Agreeing xs) (h : xs.Perm ys) : byPos xs = byPos ys := by
  refine byPos_eq_of_fibers fun p => ?_
  have hperm : (fiber p xs).Perm (fiber p ys) := h.filter _
  cases hf : fiber p xs with
  | nil =>
    rw [hf] at hperm
    exact hperm.nil_eq
  | cons a rest =>
    -- everything at `p` is the same version, so only the number of copies is left
    have hall : fiber p xs = List.replicate (fiber p xs).length a := by
      refine List.eq_replicate_iff.mpr ⟨rfl, fun b hb => ?_⟩
      have ha : a ∈ fiber p xs := hf ▸ List.mem_cons_self
      obtain ⟨hbx, hbp⟩ := mem_fiber.mp hb
      obtain ⟨hax, hap⟩ := mem_fiber.mp ha
      exact hx b hbx a hax (hbp.trans hap.symm)
    rw [hall] at hperm
    rw [← hf, hall]
    exact (List.perm_replicate.mp hperm.symm).symm

/-- A function of histories that does not count adjacent copies sees a sorted
history as the one without copies. The induction drops the first version where it
is repeated; what came before stays as a context. -/
theorem exists_ordered_of_agreeing {β : Type w} {f : List (L × V) → β}
    (hf : ∀ pre e post, f (pre ++ e :: e :: post) = f (pre ++ e :: post)) :
    ∀ {xs : List (L × V)}, xs.Pairwise (fun a b => a.1 ≤ b.1) → Agreeing xs →
      ∃ ys, Ordered ys ∧ (∀ e, e ∈ ys ↔ e ∈ xs) ∧ ∀ pre, f (pre ++ xs) = f (pre ++ ys) := by
  intro xs
  induction xs with
  | nil => exact fun _ _ => ⟨[], List.Pairwise.nil, fun _ => Iff.rfl, fun _ => rfl⟩
  | cons x xs ih =>
    intro hs hagree
    obtain ⟨hx, hs⟩ := List.pairwise_cons.mp hs
    obtain ⟨ys, hys, hmem, heq⟩ := ih hs (hagree.of_sub fun e => List.mem_cons_of_mem x)
    have hstep : ∀ pre, f (pre ++ x :: xs) = f (pre ++ x :: ys) := by
      intro pre
      have h := heq (pre ++ [x])
      rwa [List.append_assoc, List.append_assoc] at h
    by_cases hxs : x ∈ xs
    · -- the first remaining version is at or below the copy of `x`, hence is one
      refine ⟨ys, hys, fun e => ?_, fun pre => ?_⟩
      · rw [hmem, List.mem_cons]
        exact ⟨Or.inr, fun h => h.elim (fun he => he ▸ hxs) id⟩
      · cases ys with
        | nil => exact absurd ((hmem x).mpr hxs) List.not_mem_nil
        | cons y ys =>
          have hy : y ∈ xs := (hmem y).mp List.mem_cons_self
          have hyx : y.1 ≤ x.1 := by
            rcases List.mem_cons.mp ((hmem x).mpr hxs) with hhead | htail
            · rw [hhead]
            · exact ((List.pairwise_cons.mp hys).1 x htail).le
          have hcopy : x = y := hagree x List.mem_cons_self y (List.mem_cons_of_mem _ hy)
            (le_antisymm (hx y hy) hyx)
          rw [hstep, ← hcopy]
          exact hf pre x ys
    · refine ⟨x :: ys, List.pairwise_cons.mpr ⟨fun y hy => ?_, hys⟩, fun e => ?_, hstep⟩
      · have hyx := (hmem y).mp hy
        refine lt_of_le_of_ne (hx y hyx) fun hpos => hxs ?_
        rw [hagree x List.mem_cons_self y (List.mem_cons_of_mem _ hyx) hpos]
        exact hyx
      · rw [List.mem_cons, List.mem_cons, hmem]

/-- Such a function sees two sorted histories alike that hold the same versions. -/
theorem eq_of_agreeing {β : Type w} {f : List (L × V) → β}
    (hf : ∀ pre e post, f (pre ++ e :: e :: post) = f (pre ++ e :: post))
    (hxs : xs.Pairwise (fun a b => a.1 ≤ b.1)) (hys : ys.Pairwise (fun a b => a.1 ≤ b.1))
    (hagree : Agreeing xs) (hmem : ∀ e, e ∈ xs ↔ e ∈ ys) : f xs = f ys := by
  obtain ⟨zs, hzs, hzx, hfx⟩ := exists_ordered_of_agreeing hf hxs hagree
  obtain ⟨zs', hzs', hzy, hfy⟩ :=
    exists_ordered_of_agreeing hf hys (hagree.of_sub fun e he => (hmem e).mpr he)
  have hsame : zs = zs' :=
    OrdMap.eq_of_mem_iff hzs hzs' fun e => by rw [hzx, hzy, hmem]
  have hx := hfx []
  have hy := hfy []
  rw [List.nil_append, List.nil_append] at hx hy
  rw [hx, hy, hsame]

end Order

/-! ## The latest base -/

variable (isBase : V → Bool) {xs ys : List (L × V)}

/-- The latest base of a history, with the versions that follow it. -/
def latest : List (L × V) → Option ((L × V) × List (L × V))
  | [] => none
  | x :: xs =>
    match latest xs with
    | some r => some r
    | none => if isBase x.2 then some (x, xs) else none

/-- Whether a history has a base at all. -/
def HasBase (xs : List (L × V)) : Prop := ∃ x ∈ xs, isBase x.2 = true

variable {isBase}

theorem latest_eq_none_iff : latest isBase xs = none ↔ ¬ HasBase isBase xs := by
  induction xs with
  | nil => simp [latest, HasBase]
  | cons x xs ih =>
    unfold HasBase at ih ⊢
    simp only [latest]
    cases hl : latest isBase xs with
    | some r =>
      rw [hl] at ih
      have hb : ∃ y ∈ xs, isBase y.2 = true := by
        by_contra hc
        exact absurd (ih.mpr hc) (by simp)
      obtain ⟨y, hy, hyb⟩ := hb
      simp only [reduceCtorEq, false_iff, not_not]
      exact ⟨y, List.mem_cons_of_mem _ hy, hyb⟩
    | none =>
      have hno := ih.mp hl
      by_cases hx : isBase x.2 = true
      · simp only [if_pos hx, reduceCtorEq, false_iff, not_not]
        exact ⟨x, List.mem_cons_self .., hx⟩
      · simp only [if_neg hx, true_iff]
        intro h
        obtain ⟨y, hy, hyb⟩ := h
        rcases List.mem_cons.mp hy with rfl | hy
        · exact hx hyb
        · exact hno ⟨y, hy, hyb⟩

/-- The split that `latest` finds. -/
theorem latest_eq_some_iff {rest : List (L × V)} {b : L × V} :
    latest isBase xs = some (b, rest) ↔
      ∃ pre, xs = pre ++ b :: rest ∧ isBase b.2 = true ∧ ¬ HasBase isBase rest := by
  induction xs with
  | nil => simp [latest]
  | cons x xs ih =>
    simp only [latest]
    cases hl : latest isBase xs with
    | some r =>
      obtain ⟨b', rest'⟩ := r
      rw [hl] at ih
      show some (b', rest') = some (b, rest) ↔ _
      rw [ih]
      constructor
      · intro h
        obtain ⟨pre, rfl, hb, hr⟩ := h
        exact ⟨x :: pre, rfl, hb, hr⟩
      · intro h
        obtain ⟨pre, hx, hb, hr⟩ := h
        cases pre with
        | nil =>
          -- the tail has a base, so the split is not at its head
          obtain ⟨-, rfl⟩ := List.cons.inj hx
          have hno := latest_eq_none_iff.mpr hr
          rw [hl] at hno
          simp at hno
        | cons y pre =>
          exact ⟨pre, (List.cons.inj hx).2, hb, hr⟩
    | none =>
      have hno := latest_eq_none_iff.mp hl
      constructor
      · intro h
        by_cases hx : isBase x.2 = true
        · simp only [if_pos hx, Option.some.injEq, Prod.mk.injEq] at h
          obtain ⟨rfl, rfl⟩ := h
          exact ⟨[], rfl, hx, hno⟩
        · simp only [if_neg hx] at h
          simp at h
      · intro h
        obtain ⟨pre, hx, hb, hr⟩ := h
        cases pre with
        | nil =>
          obtain ⟨rfl, rfl⟩ := List.cons.inj hx
          simp only [if_pos hb]
        | cons y pre =>
          refine absurd ⟨b, ?_, hb⟩ hno
          rw [(List.cons.inj hx).2]
          simp

/-- Dropping nothing that is used changes nothing. -/
theorem latest_filter_of_kept {keep : L × V → Bool} {rest : List (L × V)} {b : L × V}
    (h : latest isBase xs = some (b, rest)) (hkeep : ∀ e ∈ b :: rest, keep e = true) :
    latest isBase (xs.filter keep) = some (b, rest) := by
  obtain ⟨pre, rfl, hb, hr⟩ := latest_eq_some_iff.mp h
  refine latest_eq_some_iff.mpr ⟨pre.filter keep, ?_, hb, hr⟩
  rw [List.filter_append, List.filter_eq_self.mpr hkeep]

theorem HasBase.of_sub (h : HasBase isBase xs) (hsub : ∀ e ∈ xs, e ∈ ys) : HasBase isBase ys := by
  obtain ⟨e, he, hb⟩ := h
  exact ⟨e, hsub e he, hb⟩

/-- A base put into a history without bases is followed by what lies at or above
its position. -/
theorem latest_orderedInsert [LinearOrder L] {x : L × V} (hx : isBase x.2 = true)
    (hs : ys.Pairwise (fun a b => a.1 ≤ b.1)) (hno : ¬ HasBase isBase ys) :
    latest isBase (List.orderedInsert (fun a b => a.1 ≤ b.1) x ys)
      = some (x, ys.filter fun e => decide (x.1 ≤ e.1)) := by
  obtain ⟨pre, _, hins⟩ := orderedInsert_split (x := x) hs
  rw [hins]
  refine latest_eq_some_iff.mpr ⟨pre, rfl, hx, ?_⟩
  exact fun h => hno (h.of_sub fun e he => (List.mem_filter.mp he).1)

/-- Versions changed in place, bases staying bases, keep the split. -/
theorem latest_map {g : L × V → V} (hg : ∀ e, isBase (g e) = isBase e.2) (xs : List (L × V)) :
    latest isBase (xs.map fun e => (e.1, g e))
      = (latest isBase xs).map fun r => ((r.1.1, g r.1), r.2.map fun e => (e.1, g e)) := by
  induction xs with
  | nil => rfl
  | cons x xs ih =>
    simp only [List.map_cons, latest, ih]
    cases hl : latest isBase xs with
    | some r => rfl
    | none =>
      simp only [Option.map_none, hg]
      split <;> rfl

/-- A suffix that has a base decides on its own. -/
theorem latest_append_of_base (h : HasBase isBase ys) :
    ∀ (xs : List (L × V)), latest isBase (xs ++ ys) = latest isBase ys := by
  intro xs
  induction xs with
  | nil => rfl
  | cons x xs ih =>
    rw [List.cons_append, latest, ih]
    cases hl : latest isBase ys with
    | some r => rfl
    | none => exact absurd h (latest_eq_none_iff.mp hl)

/-- A suffix without bases is appended to what follows the latest base. -/
theorem latest_append_of_noBase (h : ¬ HasBase isBase ys) :
    ∀ (xs : List (L × V)),
      latest isBase (xs ++ ys) = (latest isBase xs).map (fun r => (r.1, r.2 ++ ys)) := by
  intro xs
  induction xs with
  | nil => exact latest_eq_none_iff.mpr h
  | cons x xs ih =>
    rw [List.cons_append, latest, ih]
    cases hl : latest isBase xs with
    | some r => simp [latest, hl]
    | none =>
      by_cases hx : isBase x.2 = true
      · simp [latest, hl, hx]
      · simp [latest, hl, hx]

/-- **Pruning.** Dropping versions that are each shadowed by a later, retained
base leaves the latest base and everything after it as they were. -/
theorem latest_filter [LinearOrder L] {keep : L × V → Bool} :
    ∀ {xs : List (L × V)}, Ordered xs →
      (∀ x ∈ xs, keep x = false → ∃ b ∈ xs, keep b = true ∧ isBase b.2 = true ∧ x.1 < b.1) →
      latest isBase (xs.filter keep) = latest isBase xs := by
  intro xs
  induction xs with
  | nil => intro _ _; rfl
  | cons x xs ih =>
    intro hs hshadow
    have hs' := List.pairwise_cons.mp hs
    -- a witness for a version of the tail lies in the tail
    have htail : ∀ y ∈ xs, keep y = false →
        ∃ b ∈ xs, keep b = true ∧ isBase b.2 = true ∧ y.1 < b.1 := by
      intro y hy hk
      obtain ⟨b, hb, hbk, hbb, hlt⟩ := hshadow y (List.mem_cons_of_mem _ hy) hk
      rcases List.mem_cons.mp hb with rfl | hb
      · exact absurd (hs'.1 y hy) (lt_asymm hlt)
      · exact ⟨b, hb, hbk, hbb, hlt⟩
    have hrec := ih hs'.2 htail
    cases hk : keep x with
    | true =>
      rw [List.filter_cons_of_pos hk, latest, hrec, latest]
      cases hl : latest isBase xs with
      | some r => rfl
      | none =>
        -- no base in the tail, so nothing was dropped from it
        have hall : xs.filter keep = xs := by
          rw [List.filter_eq_self]
          intro y hy
          by_contra hky
          obtain ⟨b, hb, _, hbb, _⟩ := htail y hy (by simpa using hky)
          exact latest_eq_none_iff.mp hl ⟨b, hb, hbb⟩
        rw [hall]
    | false =>
      rw [List.filter_cons_of_neg (by simp [hk]), hrec, latest]
      obtain ⟨b, hb, _, hbb, hlt⟩ := hshadow x (List.mem_cons_self ..) hk
      have hbx : b ∈ xs := by
        rcases List.mem_cons.mp hb with rfl | hb
        · exact absurd hlt (lt_irrefl _)
        · exact hb
      cases hl : latest isBase xs with
      | some r => rfl
      | none => exact absurd ⟨b, hbx, hbb⟩ (latest_eq_none_iff.mp hl)

/-! ## Replay -/

section Replay

variable {P : Type w} {E : Type w} (isBase) (start : L × V → Except E P)
  (apply : P → L × V → Except E P)

/-- Start at the latest base and apply every later version in order. -/
def replay (xs : List (L × V)) : Except E (Option P) :=
  match latest isBase xs with
  | none => .ok none
  | some (b, rest) => do
    let p ← start b
    let q ← rest.foldlM apply p
    return some q

variable {isBase start apply}

/-- A history has no base exactly when replay finds nothing and does not fail
for want of one. -/
theorem replay_of_noBase {xs : List (L × V)} (h : ¬ HasBase isBase xs) :
    replay isBase start apply xs = .ok none := by
  rw [replay, latest_eq_none_iff.mpr h]

theorem replay_ne_none_of_base {xs : List (L × V)} (h : HasBase isBase xs) :
    replay isBase start apply xs ≠ .ok none := by
  rw [replay]
  cases hl : latest isBase xs with
  | none => exact absurd h (latest_eq_none_iff.mp hl)
  | some r =>
    obtain ⟨b, rest⟩ := r
    cases hs : start b with
    | error e => simp [Bind.bind, Except.bind, hs]
    | ok p =>
      cases hr : rest.foldlM apply p with
      | error e => simp [Bind.bind, Except.bind, hs, hr]
      | ok q => simp [Bind.bind, Except.bind, hs, hr, pure, Except.pure]

/-- What every start yields and every step keeps holds of the object replayed. -/
theorem replay_invariant {I : P → Prop} (hstart : ∀ b p, start b = .ok p → I p)
    (hstep : ∀ p e q, I p → apply p e = .ok q → I q) {xs : List (L × V)} {p : P}
    (h : replay isBase start apply xs = .ok (some p)) : I p := by
  have hrun : ∀ (es : List (L × V)) p q, I p → es.foldlM apply p = .ok q → I q := by
    intro es
    induction es with
    | nil =>
      intro p q hp h
      injection h with h
      rw [← h]
      exact hp
    | cons e es ih =>
      intro p q hp h
      rw [List.foldlM_cons] at h
      cases he : apply p e with
      | error err => rw [he] at h; exact absurd h (by simp [Bind.bind, Except.bind])
      | ok p' =>
        rw [he] at h
        exact ih p' q (hstep p e p' hp he) h
  rw [replay] at h
  cases hl : latest isBase xs with
  | none => rw [hl] at h; exact absurd h (by simp)
  | some r =>
    obtain ⟨b, rest⟩ := r
    simp only [hl] at h
    cases hs : start b with
    | error e => rw [hs] at h; exact absurd h (by simp [Bind.bind, Except.bind])
    | ok p₀ =>
      cases hr : rest.foldlM apply p₀ with
      | error e => simp [hs, hr, Bind.bind, Except.bind] at h
      | ok q =>
        simp only [hs, hr, Bind.bind, Except.bind, pure, Except.pure, Except.ok.injEq,
          Option.some.injEq] at h
        rw [← h]
        exact hrun rest p₀ q (hstart b p₀ hs) hr

theorem replay_append_of_base {ys : List (L × V)} (h : HasBase isBase ys) (xs : List (L × V)) :
    replay isBase start apply (xs ++ ys) = replay isBase start apply ys := by
  rw [replay, latest_append_of_base h, replay]

/-- **Composition.** Over a suffix without bases, replay carries on from the
object the prefix yields. -/
theorem replay_append {ys : List (L × V)} (h : ¬ HasBase isBase ys) (xs : List (L × V)) :
    replay isBase start apply (xs ++ ys) =
      match replay isBase start apply xs with
      | .error e => .error e
      | .ok none => .ok none
      | .ok (some p) => (ys.foldlM apply p).map some := by
  rw [replay, latest_append_of_noBase h, replay]
  cases hl : latest isBase xs with
  | none => rfl
  | some r =>
    obtain ⟨b, rest⟩ := r
    simp only [Option.map_some, List.foldlM_append]
    cases hs : start b with
    | error e => rfl
    | ok p =>
      cases hr : rest.foldlM apply p with
      | error e => simp [Bind.bind, Except.bind, hr]
      | ok q =>
        cases hy : ys.foldlM apply q with
        | error e => simp [Bind.bind, Except.bind, hr, hy, Except.map, pure, Except.pure]
        | ok z => simp [Bind.bind, Except.bind, hr, hy, Except.map, pure, Except.pure]

end Replay

end AethelDB.Lib
