import Mathlib

/-!
# Retrying a list of items until none is left

A list of pending items is gone through again and again. Visiting an item may change
a state, and says whether the item is to be kept for another pass; the passes end
when nothing is pending, or when a pass has dropped nothing. A visit may also abort
the whole.

`Settles` is what makes this end with nothing pending: items have a rank, what is done
stays done, and an item whose lower-ranked items are all done is dropped as done. A
pass that drops nothing is then impossible, since a pending item of least rank would
have been dropped (`Settles.pass_progress`).

Without ranks the passes may end with items pending. `Rests` says of a visit that keeps
its item that it changes nothing and that the item is stuck; a last pass that drops
nothing then leaves the state as it is, and every item is done or stuck in it
(`Rests.retry_eq`). `Ends` is the loop as it is written, with no bound on the passes.
-/

namespace AethelDB.Lib

universe u v

variable {σ : Type u} {ι : Type v}

/-- Visit each item in turn and keep those that ask for it. -/
def pass (visit : σ → ι → Option (σ × Bool)) : σ → List ι → Option (σ × List ι)
  | s, [] => some (s, [])
  | s, x :: xs =>
    match visit s x with
    | none => none
    | some (s', keep) =>
      match pass visit s' xs with
      | none => none
      | some (s'', rest) => some (s'', if keep then x :: rest else rest)

def retryLoop (visit : σ → ι → Option (σ × Bool)) : Nat → σ → List ι → Option (σ × List ι)
  | 0, s, pending => some (s, pending)
  | fuel + 1, s, pending =>
    match pass visit s pending with
    | none => none
    | some (s', pending') =>
      if pending' = [] ∨ pending'.length = pending.length then some (s', pending')
      else retryLoop visit fuel s' pending'

/-- Every pass but the last drops an item, so there are no more passes than items and
one. -/
def retry (visit : σ → ι → Option (σ × Bool)) (s : σ) (pending : List ι) :
    Option (σ × List ι) :=
  retryLoop visit (pending.length + 1) s pending

variable {visit : σ → ι → Option (σ × Bool)}

theorem pass_sublist :
    ∀ {pending rest : List ι} {s s' : σ}, pass visit s pending = some (s', rest) →
      rest.Sublist pending := by
  intro pending
  induction pending with
  | nil =>
    intro rest s s' h
    obtain ⟨_, rfl⟩ := Prod.mk.inj (Option.some.inj h)
    exact List.Sublist.refl _
  | cons x xs ih =>
    intro rest s s' h
    rw [pass] at h
    split at h
    · simp at h
    · split at h
      · simp at h
      · next hrest =>
        obtain ⟨_, rfl⟩ := Prod.mk.inj (Option.some.inj h)
        split
        · exact (ih hrest).cons_cons x
        · exact (ih hrest).cons x

/-- The loop without a bound on the passes, and what it ends with. -/
inductive Ends (visit : σ → ι → Option (σ × Bool)) : σ → List ι → σ × List ι → Prop
  | stop {s s' : σ} {pending pending' : List ι} : pass visit s pending = some (s', pending') →
      pending' = [] ∨ pending'.length = pending.length → Ends visit s pending (s', pending')
  | again {s s' : σ} {pending pending' : List ι} {r : σ × List ι} :
      pass visit s pending = some (s', pending') →
      ¬(pending' = [] ∨ pending'.length = pending.length) → Ends visit s' pending' r →
      Ends visit s pending r

/-- The bound is never met: what `retry` returns is what the loop ends with. -/
theorem ends_of_retryLoop {fuel : Nat} {s : σ} {pending : List ι} {r : σ × List ι}
    (hfuel : pending.length < fuel) (h : retryLoop visit fuel s pending = some r) :
    Ends visit s pending r := by
  induction fuel generalizing s pending with
  | zero => omega
  | succ fuel ih =>
    rw [retryLoop] at h
    cases hp : pass visit s pending with
    | none =>
      rw [hp] at h
      cases h
    | some p =>
      obtain ⟨s', pending'⟩ := p
      have hle := (pass_sublist hp).length_le
      rw [hp] at h
      by_cases hstop : pending' = [] ∨ pending'.length = pending.length
      · simp only [if_pos hstop] at h
        obtain rfl := Option.some.inj h
        exact .stop hp hstop
      · simp only [if_neg hstop] at h
        have hmore := not_or.mp hstop
        exact .again hp hstop (ih (by omega) h)

theorem ends_of_retry {s : σ} {pending : List ι} {r : σ × List ι}
    (h : retry visit s pending = some r) : Ends visit s pending r :=
  ends_of_retryLoop (Nat.lt_succ_self _) h

/-- A visit from a state in `I` keeps what is done and drops its item only as done. -/
def KeepsDone (visit : σ → ι → Option (σ × Bool)) (all : List ι) (I : σ → Prop)
    (Done : σ → ι → Prop) : Prop :=
  ∀ {s x}, I s → x ∈ all → ∃ s' keep, visit s x = some (s', keep) ∧ I s' ∧
    (∀ y ∈ all, Done s y → Done s' y) ∧ (keep = false → Done s' x)

/-- A pass keeps what is done and drops only what is done, if each visit does. -/
theorem pass_covers {all : List ι} {I : σ → Prop} {Done : σ → ι → Prop}
    (h : KeepsDone visit all I Done) :
    ∀ {pending : List ι} {s : σ}, I s → (∀ x ∈ pending, x ∈ all) →
      ∃ s' rest, pass visit s pending = some (s', rest) ∧ I s' ∧
        (∀ y ∈ all, Done s y → Done s' y) ∧ (∀ x ∈ pending, x ∈ rest ∨ Done s' x) := by
  intro pending
  induction pending with
  | nil =>
    intro s hs _
    exact ⟨s, [], rfl, hs, fun _ _ hy => hy, nofun⟩
  | cons x xs ih =>
    intro s hs hall
    obtain ⟨s', keep, hvisit, hs', hmono, hdrop⟩ := h hs (hall x List.mem_cons_self)
    obtain ⟨s'', rest, hrest, hs'', hmono', hcover⟩ :=
      ih hs' fun y hy => hall y (List.mem_cons_of_mem _ hy)
    refine ⟨s'', if keep then x :: rest else rest, by simp only [pass, hvisit, hrest],
      hs'', fun y hy hd => hmono' y hy (hmono y hy hd), ?_⟩
    intro y hy
    cases keep with
    | true =>
      rcases List.mem_cons.mp hy with rfl | hy
      · exact Or.inl List.mem_cons_self
      · exact (hcover y hy).imp_left fun hm => List.mem_cons_of_mem _ hm
    | false =>
      rcases List.mem_cons.mp hy with rfl | hy
      · exact Or.inr (hmono' _ (hall _ List.mem_cons_self) (hdrop rfl))
      · exact hcover y hy

/-- The last pass of the loop starts with all pending that is not done, and leaves nothing or
drops nothing. -/
theorem retryLoop_last {all : List ι} {I : σ → Prop} {Done : σ → ι → Prop}
    (h : KeepsDone visit all I Done) :
    ∀ {fuel : Nat} {pending : List ι} {s : σ}, pending.length < fuel → I s →
      (∀ y ∈ pending, y ∈ all) → (∀ y ∈ all, y ∈ pending ∨ Done s y) →
      ∃ s₀ last s' rest, I s₀ ∧ (∀ y ∈ last, y ∈ all) ∧ (∀ y ∈ all, y ∈ last ∨ Done s₀ y) ∧
        pass visit s₀ last = some (s', rest) ∧ (rest = [] ∨ rest.length = last.length) ∧
        retryLoop visit fuel s pending = some (s', rest) ∧ I s' ∧ ∀ y ∈ all, y ∈ rest ∨ Done s' y := by
  intro fuel
  induction fuel with
  | zero => exact fun hlt => absurd hlt (Nat.not_lt_zero _)
  | succ fuel ih =>
    intro pending s hlt hs hall hcover
    obtain ⟨s', rest, hpass, hs', hmono, hkept⟩ := pass_covers h hs hall
    have hcover' : ∀ y ∈ all, y ∈ rest ∨ Done s' y := by
      intro y hy
      rcases hcover y hy with hp | hd
      · exact hkept y hp
      · exact Or.inr (hmono y hy hd)
    have hle := (pass_sublist hpass).length_le
    simp only [retryLoop, hpass]
    by_cases hstop : rest = [] ∨ rest.length = pending.length
    · rw [if_pos hstop]
      exact ⟨s, pending, s', rest, hs, hall, hcover, hpass, hstop, rfl, hs', hcover'⟩
    · rw [if_neg hstop]
      rw [not_or] at hstop
      exact ih (by omega) hs' (fun y hy => hall y ((pass_sublist hpass).subset hy)) hcover'

/-- A visit that aborts from every state it can be made in aborts the pass. -/
theorem pass_eq_none {J : σ → Prop} {x : ι} (hnone : ∀ s, J s → visit s x = none) :
    ∀ {pending : List ι} {s : σ}, J s → x ∈ pending →
      (∀ y ∈ pending, y ≠ x → ∀ s s' keep, J s → visit s y = some (s', keep) → J s') →
      pass visit s pending = none := by
  intro pending
  induction pending with
  | nil => exact nofun
  | cons y ys ih =>
    intro s hs hx hothers
    rw [pass]
    by_cases hy : y = x
    · rw [hy, hnone s hs]
    · cases hv : visit s y with
      | none => rfl
      | some r =>
        obtain ⟨s', keep⟩ := r
        have hs' := hothers y List.mem_cons_self hy s s' keep hs hv
        have hx' : x ∈ ys := (List.mem_cons.mp hx).resolve_left (Ne.symm hy)
        have hnext := ih hs' hx' fun z hz => hothers z (List.mem_cons_of_mem _ hz)
        simp only [hnext]

theorem retry_eq_none {s : σ} {pending : List ι} (h : pass visit s pending = none) :
    retry visit s pending = none := by
  rw [retry, retryLoop, h]

/-! ## When everything gets done -/

/-- Items get done in the order of their rank, from states in `I`. -/
structure Settles (visit : σ → ι → Option (σ × Bool)) (all : List ι) (I : σ → Prop)
    (Done : σ → ι → Prop) (rank : ι → Nat) : Prop where
  visit_eq : ∀ {s x}, I s → x ∈ all → ∃ s' keep, visit s x = some (s', keep) ∧ I s' ∧
    (∀ y ∈ all, Done s y → Done s' y) ∧ (keep = false → Done s' x) ∧
    ((∀ y ∈ all, rank y < rank x → Done s y) → keep = false)

namespace Settles

variable {all : List ι} {I : σ → Prop} {Done : σ → ι → Prop} {rank : ι → Nat}

theorem keepsDone (h : Settles visit all I Done rank) : KeepsDone visit all I Done := by
  intro s x hs hx
  obtain ⟨s', keep, hvisit, hs', hmono, hdrop, -⟩ := h.visit_eq hs hx
  exact ⟨s', keep, hvisit, hs', hmono, hdrop⟩

/-- An item whose lower-ranked items are done does not outlive a pass. -/
theorem pass_drops (h : Settles visit all I Done rank) {x : ι} :
    ∀ {pending rest : List ι} {s s' : σ}, I s → (∀ y ∈ pending, y ∈ all) → x ∈ pending →
      (∀ y ∈ all, rank y < rank x → Done s y) → pass visit s pending = some (s', rest) →
      rest.length < pending.length := by
  intro pending
  induction pending with
  | nil => exact fun _ _ hx => absurd hx List.not_mem_nil
  | cons y ys ih =>
    intro rest s s' hs hall hx hlow hpass
    obtain ⟨s₁, keep, hvisit, hs₁, hmono, _, hready⟩ := h.visit_eq hs (hall y List.mem_cons_self)
    simp only [pass, hvisit] at hpass
    split at hpass
    · simp at hpass
    · next s₂ rest' hrest =>
      obtain ⟨_, rfl⟩ := Prod.mk.inj (Option.some.inj hpass)
      have hle := (pass_sublist hrest).length_le
      rcases List.mem_cons.mp hx with rfl | hx
      · rw [hready hlow]
        simp only [Bool.false_eq_true, if_false, List.length_cons]
        omega
      · have hlt := ih hs₁ (fun z hz => hall z (List.mem_cons_of_mem _ hz)) hx
          (fun z hz hr => hmono z hz (hlow z hz hr)) hrest
        split <;> simp only [List.length_cons] <;> omega

/-- **Every pass over pending items drops one.** -/
theorem pass_progress (h : Settles visit all I Done rank) {pending rest : List ι} {s s' : σ}
    (hs : I s) (hall : ∀ y ∈ pending, y ∈ all) (hcover : ∀ y ∈ all, y ∈ pending ∨ Done s y)
    (hne : pending ≠ []) (hpass : pass visit s pending = some (s', rest)) :
    rest.length < pending.length := by
  -- a pending item of least rank: what ranks lower is no longer pending
  obtain ⟨x, hx, hmin⟩ :=
    exists_minimalFor_of_wellFoundedLT (· ∈ pending) rank (List.exists_mem_of_ne_nil _ hne)
  refine h.pass_drops hs hall hx ?_ hpass
  intro y hy hlt
  rcases hcover y hy with hp | hd
  · exact absurd (hmin hp hlt.le) (by omega)
  · exact hd

/-- **Everything gets done.** -/
theorem retry_eq (h : Settles visit all I Done rank) {s : σ} (hs : I s) :
    ∃ s', retry visit s all = some (s', []) ∧ I s' ∧ ∀ y ∈ all, Done s' y := by
  obtain ⟨s₀, last, s', rest, hs₀, hall, hcover, hpass, hstop, hloop, hs', hcover'⟩ :=
    retryLoop_last h.keepsDone (Nat.lt_succ_self _) hs (fun _ hy => hy) (fun _ hy => Or.inl hy)
  obtain rfl : rest = [] := by
    refine hstop.elim id fun hlen => ?_
    by_cases hne : last = []
    · rw [hne] at hlen
      exact List.eq_nil_of_length_eq_zero hlen
    · have hless := h.pass_progress hs₀ hall hcover hne hpass
      omega
  exact ⟨s', hloop, hs', fun y hy => (hcover' y hy).resolve_left List.not_mem_nil⟩

end Settles

/-! ## When some items stay -/

/-- A visit that drops its item has it done, and one that keeps it changes nothing and
finds it stuck. -/
structure Rests (visit : σ → ι → Option (σ × Bool)) (all : List ι) (I : σ → Prop)
    (Done Stuck : σ → ι → Prop) : Prop where
  visit_eq : ∀ {s x}, I s → x ∈ all → ∃ s' keep, visit s x = some (s', keep) ∧ I s' ∧
    (∀ y ∈ all, Done s y → Done s' y) ∧ (keep = false → Done s' x) ∧
    (keep = true → s' = s ∧ Stuck s x)

namespace Rests

variable {all : List ι} {I : σ → Prop} {Done Stuck : σ → ι → Prop}

theorem keepsDone (h : Rests visit all I Done Stuck) : KeepsDone visit all I Done := by
  intro s x hs hx
  obtain ⟨s', keep, hvisit, hs', hmono, hdrop, -⟩ := h.visit_eq hs hx
  exact ⟨s', keep, hvisit, hs', hmono, hdrop⟩

/-- A pass that drops nothing changes nothing, and finds every item stuck. -/
theorem pass_kept (h : Rests visit all I Done Stuck) :
    ∀ {pending rest : List ι} {s s' : σ}, I s → (∀ y ∈ pending, y ∈ all) →
      pass visit s pending = some (s', rest) → rest.length = pending.length →
      s' = s ∧ ∀ x ∈ pending, Stuck s x := by
  intro pending
  induction pending with
  | nil =>
    intro rest s s' _ _ hpass _
    obtain ⟨rfl, _⟩ := Prod.mk.inj (Option.some.inj hpass)
    exact ⟨rfl, nofun⟩
  | cons y ys ih =>
    intro rest s s' hs hall hpass hlen
    obtain ⟨s₁, keep, hvisit, hs₁, _, _, hkeep⟩ := h.visit_eq hs (hall y List.mem_cons_self)
    simp only [pass, hvisit] at hpass
    split at hpass
    · simp at hpass
    · next s₂ rest' hrest =>
      obtain ⟨rfl, rfl⟩ := Prod.mk.inj (Option.some.inj hpass)
      have hle := (pass_sublist hrest).length_le
      cases keep with
      | false =>
        simp only [Bool.false_eq_true, if_false, List.length_cons] at hlen
        omega
      | true =>
        simp only [if_true, List.length_cons] at hlen
        obtain ⟨rfl, hstuck⟩ := hkeep rfl
        obtain ⟨rfl, hrests⟩ :=
          ih hs (fun z hz => hall z (List.mem_cons_of_mem _ hz)) hrest (by omega)
        refine ⟨rfl, fun x hx => ?_⟩
        rcases List.mem_cons.mp hx with rfl | hx
        · exact hstuck
        · exact hrests x hx

/-- **Every item ends up done or stuck.** -/
theorem retry_eq (h : Rests visit all I Done Stuck) {s : σ} (hs : I s) :
    ∃ s' rest, retry visit s all = some (s', rest) ∧ I s' ∧ ∀ y ∈ all, Done s' y ∨ Stuck s' y := by
  obtain ⟨s₀, last, s', rest, hs₀, hall, hcover, hpass, hstop, hloop, hs', hcover'⟩ :=
    retryLoop_last h.keepsDone (Nat.lt_succ_self _) hs (fun _ hy => hy) (fun _ hy => Or.inl hy)
  refine ⟨s', rest, hloop, hs', fun y hy => ?_⟩
  obtain rfl | hlen := hstop
  · exact Or.inl ((hcover' y hy).resolve_left List.not_mem_nil)
  · obtain ⟨rfl, hstuck⟩ := h.pass_kept hs₀ hall hpass hlen
    exact (hcover y hy).symm.imp_right (hstuck y)

end Rests

/-- Items that are dropped without an effect are dropped in one pass. -/
theorem retry_of_dropped {s : σ} {pending : List ι}
    (h : ∀ x ∈ pending, visit s x = some (s, false)) : retry visit s pending = some (s, []) := by
  have hpass : pass visit s pending = some (s, []) := by
    induction pending with
    | nil => rfl
    | cons x xs ih =>
      rw [pass, h x List.mem_cons_self]
      simp only [ih fun y hy => h y (List.mem_cons_of_mem _ hy), Bool.false_eq_true, if_false]
  rw [retry, retryLoop, hpass]
  exact if_pos (Or.inl rfl)

end AethelDB.Lib
