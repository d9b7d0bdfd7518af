import Mathlib

/-!
# Runs of a deterministic system

A system is a step function; a run is the list of actions taken from an initial
state, and `run` the state it ends in. An action that is not enabled leaves the
state alone, so every list of actions is a run.

Conditions on runs are stated per step (`Along`): each action is judged against
the actions before it. `run_invariant` is the induction rule: what holds
initially, and is kept by every step that meets the condition, holds after
every run all of whose steps meet it, and hence in every state on the way.
-/

namespace AethelDB.Lib

universe u v

variable {σ : Type u} {α : Type v}

/-- The state after the actions `as`. -/
def run (step : σ → α → σ) (init : σ) (as : List α) : σ := as.foldl step init

/-- Every action meets `ok`, which sees the actions before it. -/
def Along (ok : List α → α → Prop) (as : List α) : Prop :=
  ∀ pre a post, as = pre ++ a :: post → ok pre a

variable {step : σ → α → σ} {init : σ} {ok : List α → α → Prop}

@[simp] theorem run_nil : run step init [] = init := rfl

@[simp] theorem run_concat (as : List α) (a : α) :
    run step init (as ++ [a]) = step (run step init as) a := by
  rw [run, List.foldl_append]
  rfl

/-- A condition on a run holds on each of its beginnings. -/
theorem Along.of_append {as bs : List α} (h : Along ok (as ++ bs)) : Along ok as := by
  intro pre a post hsplit
  exact h pre a (post ++ bs) (by rw [hsplit, List.append_assoc, List.cons_append])

/-- A condition on a longer run splits off its last step. -/
theorem along_concat {as : List α} {a : α} :
    Along ok (as ++ [a]) ↔ Along ok as ∧ ok as a := by
  constructor
  · intro h
    exact ⟨h.of_append, h as a [] rfl⟩
  · intro h pre b post hsplit
    obtain ⟨has, ha⟩ := h
    rcases List.eq_nil_or_concat post with rfl | ⟨post', c, rfl⟩
    · obtain ⟨rfl, hb⟩ := List.append_inj' hsplit rfl
      rw [← (List.cons.inj hb).1]
      exact ha
    · rw [List.concat_eq_append, ← List.cons_append, ← List.append_assoc] at hsplit
      obtain ⟨rfl, _⟩ := List.append_inj' hsplit rfl
      exact has pre b post' rfl

theorem Along.mono {ok' : List α → α → Prop} {as : List α} (h : Along ok as)
    (himp : ∀ pre a, ok pre a → ok' pre a) : Along ok' as :=
  fun pre a post hsplit => himp pre a (h pre a post hsplit)

/-- A condition that does not look at the actions before. -/
theorem along_of_forall {P : α → Prop} {as : List α} (h : ∀ a ∈ as, P a) :
    Along (fun _ a => P a) as := by
  rintro pre a post rfl
  exact h a (List.mem_append_right _ List.mem_cons_self)

theorem along_iff_getElem {as : List α} :
    Along ok as ↔ ∀ i : Fin as.length, ok (as.take i) as[i] := by
  constructor
  · intro h i
    refine h _ _ (as.drop (i + 1)) ?_
    have hdrop : as[i] :: as.drop (i + 1) = as.drop i := (List.drop_eq_getElem_cons i.isLt).symm
    rw [hdrop, List.take_append_drop]
  · intro h pre a post hx
    subst hx
    have hi : pre.length < (pre ++ a :: post).length := by simp
    simpa using h ⟨pre.length, hi⟩

/-- A decidable condition is decided along a run. -/
instance [∀ pre a, Decidable (ok pre a)] (as : List α) : Decidable (Along ok as) :=
  decidable_of_iff _ along_iff_getElem.symm

/-- **Invariant rule.** -/
theorem run_invariant {I : List α → σ → Prop} (h0 : I [] init)
    (hstep : ∀ pre a, Along ok pre → ok pre a → I pre (run step init pre) →
      I (pre ++ [a]) (step (run step init pre) a)) :
    ∀ as, Along ok as → I as (run step init as) := by
  intro as
  induction as using List.reverseRecOn with
  | nil => exact fun _ => h0
  | append_singleton as a ih =>
    intro hok
    obtain ⟨has, ha⟩ := along_concat.mp hok
    rw [run_concat]
    exact hstep as a has ha (ih has)

/-- The rule where no step needs a condition. -/
theorem run_invariant_always {I : σ → Prop} (h0 : I init) (hstep : ∀ s a, I s → I (step s a))
    (as : List α) : I (run step init as) :=
  run_invariant (I := fun _ s => I s) h0 (fun _ a _ _ h => hstep _ a h) as
    (along_of_forall fun _ _ => trivial)

/-- Two conditions that come to the same in the states with `I` hold along the same runs, if one of
them keeps `I`. -/
theorem along_iff_of_invariant {ok' : List α → α → Prop} {I : σ → Prop} (h0 : I init)
    (hstep : ∀ pre a, ok' pre a → I (run step init pre) → I (step (run step init pre) a))
    (hiff : ∀ pre a, I (run step init pre) → (ok pre a ↔ ok' pre a)) (as : List α) :
    Along ok as ↔ Along ok' as := by
  have hinv : ∀ pre, Along ok' pre → I (run step init pre) :=
    run_invariant (I := fun _ s => I s) h0 fun pre a _ ha hI => hstep pre a ha hI
  induction as using List.reverseRecOn with
  | nil => exact ⟨fun _ _ _ _ h => absurd h (by simp), fun _ _ _ _ h => absurd h (by simp)⟩
  | append_singleton as a ih =>
    rw [along_concat, along_concat]
    constructor
    · rintro ⟨has, ha⟩
      exact ⟨ih.mp has, (hiff as a (hinv as (ih.mp has))).mp ha⟩
    · rintro ⟨has, ha⟩
      exact ⟨ih.mpr has, (hiff as a (hinv as has)).mpr ha⟩

end AethelDB.Lib
