import Mathlib

/-!
# A journal of effects, some of which undo others

A system whose state changes are written down in order. A view of the state need not
show every effect of the journal: an effect may have been undone by a later one. What
can be asked of a view taken after `n` effects is `Covers`: each of the first `n` is
shown, or undone by a later one of them.

`Covers.concat` is the rule for a change of the state itself, `Covers.append` says that
a view taken earlier keeps covering what it covered.
-/

namespace AethelDB.Lib

universe u

variable {E : Type u} {undoes : E → E → Prop} {shown shown' : E → Prop} {h : List E} {n : Nat}

/-- Each of the first `n` effects is shown, or undone by a later one of them. -/
def Covers (undoes : E → E → Prop) (shown : E → Prop) (h : List E) (n : Nat) : Prop :=
  ∀ i < n, ∀ e ∈ h[i]?, shown e ∨ ∃ u ∈ (h.take n).drop (i + 1), undoes u e

theorem covers_zero : Covers undoes shown h 0 := fun _ hi => absurd hi (Nat.not_lt_zero _)

theorem Covers.mono (hc : Covers undoes shown h n) (himp : ∀ e, shown e → shown' e) :
    Covers undoes shown' h n :=
  fun i hi e he => (hc i hi e he).imp_left (himp e)

/-- Later effects do not matter to an earlier view. -/
theorem Covers.append (hc : Covers undoes shown h n) (hn : n ≤ h.length) (k : List E) :
    Covers undoes shown (h ++ k) n := by
  intro i hi e he
  rw [List.getElem?_append_left (by omega)] at he
  rw [List.take_append_of_le_length hn]
  exact hc i hi e he

/-- **The rule for a change.** What was shown is still shown, or the new effect undoes
it; and the new effect is shown. -/
theorem Covers.concat (hc : Covers undoes shown h h.length) {u : E}
    (hkeep : ∀ e, shown e → shown' e ∨ undoes u e) (hnew : shown' u) :
    Covers undoes shown' (h ++ [u]) (h ++ [u]).length := by
  intro i hi e he
  rw [List.length_append, List.length_singleton] at hi
  rw [List.take_length]
  rcases Nat.lt_or_ge i h.length with hlt | hge
  · rw [List.getElem?_append_left hlt] at he
    rw [List.drop_append_of_le_length hlt]
    rcases hc i hlt e he with hs | ⟨u', hu', hundo⟩
    · rcases hkeep e hs with hs' | hundo
      · exact Or.inl hs'
      · exact Or.inr ⟨u, List.mem_append_right _ (List.mem_singleton_self _), hundo⟩
    · rw [List.take_length] at hu'
      exact Or.inr ⟨u', List.mem_append_left _ hu', hundo⟩
  · obtain rfl : i = h.length := by omega
    rw [List.getElem?_concat_length] at he
    rw [← Option.some.inj he]
    exact Or.inl hnew

/-- An effect the view has seen is shown, or undone later in the journal. -/
theorem Covers.shown_or_undone (hc : Covers undoes shown h n) {i : Nat} (hi : i < n) {e : E}
    (he : e ∈ h[i]?) : shown e ∨ ∃ u ∈ h.drop (i + 1), undoes u e := by
  rcases hc i hi e he with hs | ⟨u, hu, hundo⟩
  · exact Or.inl hs
  · rw [List.drop_take] at hu
    exact Or.inr ⟨u, List.mem_of_mem_take hu, hundo⟩

end AethelDB.Lib
