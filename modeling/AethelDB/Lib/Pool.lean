import Mathlib

/-!
# Tasks that interleave at their awaits

A pool is a shared state and the tasks in flight over it. A task is where it waits: resuming
it runs one segment of its code, up to the next wait, on the shared state, and leaves it at
that wait or lets it end. Segments do not overlap, so an interleaving is a list of resumptions.

Where a task stands in the list is only its name. `resume_cases` says what a resumption does
up to the order of the tasks, and `resume_rule` is the rule for statements that do not depend on
it either.
-/

namespace AethelDB.Lib

universe u v

/-- A shared state and the tasks in flight. -/
structure Pool (σ : Type u) (τ : Type v) where
  shared : σ
  tasks : List τ
deriving DecidableEq

namespace Pool

variable {σ : Type u} {τ : Type v}

/-- New tasks start. -/
def spawn (p : Pool σ τ) (ts : List τ) : Pool σ τ := { p with tasks := p.tasks ++ ts }

/-- Run a segment of task `i`, if there is one. -/
def resume (segment : σ → τ → σ × Option τ) (i : Nat) (p : Pool σ τ) : Pool σ τ :=
  match p.tasks[i]? with
  | none => p
  | some t =>
    { shared := (segment p.shared t).1
      tasks := p.tasks.take i ++ (segment p.shared t).2.toList ++ p.tasks.drop (i + 1) }

theorem resume_of_none {segment : σ → τ → σ × Option τ} {i : Nat} {p : Pool σ τ}
    (h : p.tasks[i]? = none) : p.resume segment i = p := by
  unfold resume
  rw [h]

/-- A task and the others. -/
theorem perm_cons_of_getElem? {ts : List τ} {i : Nat} {t : τ} (h : ts[i]? = some t) :
    ts.Perm (t :: (ts.take i ++ ts.drop (i + 1))) := by
  obtain ⟨hi, rfl⟩ := List.getElem?_eq_some_iff.mp h
  have hsplit : ts = ts.take i ++ ts[i] :: ts.drop (i + 1) := by
    rw [← List.drop_eq_getElem_cons hi, List.take_append_drop]
  nth_rewrite 1 [hsplit]
  exact List.perm_middle

/-- What a resumption does: nothing, or one segment of a task, the others staying where they
are. -/
theorem resume_cases (segment : σ → τ → σ × Option τ) (i : Nat) (p : Pool σ τ) :
    (p.tasks[i]? = none ∧ p.resume segment i = p) ∨
      ∃ t rest, p.tasks[i]? = some t ∧ p.tasks.Perm (t :: rest) ∧
        (p.resume segment i).shared = (segment p.shared t).1 ∧
        (p.resume segment i).tasks.Perm ((segment p.shared t).2.toList ++ rest) := by
  cases h : p.tasks[i]? with
  | none => exact Or.inl ⟨rfl, resume_of_none h⟩
  | some t =>
    refine Or.inr ⟨t, _, rfl, perm_cons_of_getElem? h, ?_, ?_⟩
    · unfold resume
      rw [h]
    · unfold resume
      rw [h]
      rw [← List.append_assoc]
      exact List.perm_append_comm.append_right _

/-- What does not depend on the order of the tasks holds after a resumption if it holds after
every segment that can have run. -/
theorem resume_rule {segment : σ → τ → σ × Option τ} {i : Nat} {p : Pool σ τ} {I : Pool σ τ → Prop}
    (hperm : ∀ w ts ts', ts.Perm ts' → I ⟨w, ts⟩ → I ⟨w, ts'⟩) (hnone : I p)
    (hsegment : ∀ t rest, p.tasks[i]? = some t → p.tasks.Perm (t :: rest) →
      I ⟨(segment p.shared t).1, (segment p.shared t).2.toList ++ rest⟩) :
    I (p.resume segment i) := by
  rcases resume_cases segment i p with ⟨-, hsame⟩ | ⟨t, rest, hi, hp, hshared, htasks⟩
  · rw [hsame]
    exact hnone
  · have hnext := hsegment t rest hi hp
    rw [← hshared] at hnext
    exact hperm _ _ _ htasks.symm hnext

/-- Two pools whose tasks correspond, and whose shared states are related, stay so when the same
task is resumed in both and its segments correspond. -/
theorem resume_map (segment : σ → τ → σ × Option τ) {i : Nat} {p p' : Pool σ τ} {R : σ → σ → Prop}
    {f : τ → τ} (hshared : R p.shared p'.shared) (htasks : p'.tasks = p.tasks.map f)
    (hsegment : ∀ t, p.tasks[i]? = some t →
      R (segment p.shared t).1 (segment p'.shared (f t)).1 ∧
        (segment p'.shared (f t)).2 = (segment p.shared t).2.map f) :
    R (p.resume segment i).shared (p'.resume segment i).shared ∧
      (p'.resume segment i).tasks = (p.resume segment i).tasks.map f := by
  have hi : p'.tasks[i]? = p.tasks[i]?.map f := by rw [htasks, List.getElem?_map]
  unfold resume
  rw [hi]
  cases h : p.tasks[i]? with
  | none => exact ⟨hshared, htasks⟩
  | some t =>
    obtain ⟨hR, hnext⟩ := hsegment t h
    refine ⟨hR, ?_⟩
    simp only [Option.map_some, htasks, hnext, List.map_append, List.map_take, List.map_drop,
      Option.toList_map]

end Pool

end AethelDB.Lib
