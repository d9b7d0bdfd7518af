import Mathlib

/-!
# One ballot per term

A voter remembers the term it is in and whom it voted for in that term, and
forgets both when it moves to a later term. `Ledger` relates this memory to the
ballots the voter has cast so far, wherever those are recorded: none is of a
later term, the one of the current term is the remembered one, and no term has
two.

The rules are the ways a voter's memory can move: on to a later term
(`Ledger.advance`), and by casting a ballot in the current term that it has not
given away (`Ledger.grant`). Two majorities of one electorate share a voter
(`exists_mem_of_majorities`), so two candidates with majorities in one term are
the same.
-/

namespace AethelDB.Lib

universe u v

variable {T : Type u} {C : Type v} [LinearOrder T]

/-- What a voter's memory says about the ballots it has cast. -/
structure Ledger (term : T) (vote : Option C) (cast : T → C → Prop) : Prop where
  bound : ∀ {t c}, cast t c → t ≤ term
  current : ∀ {c}, cast term c → vote = some c
  unique : ∀ {t c c'}, cast t c → cast t c' → c = c'

namespace Ledger

variable {term term' : T} {vote vote' : Option C} {cast cast' : T → C → Prop}

/-- A voter that has cast nothing. -/
theorem of_none (h : ∀ t c, ¬ cast t c) : Ledger term vote cast where
  bound := fun hc => absurd hc (h _ _)
  current := fun hc => absurd hc (h _ _)
  unique := fun hc => absurd hc (h _ _)

/-- Only the ballots matter, not how they are recorded. -/
theorem mono (h : Ledger term vote cast) (hsub : ∀ {t c}, cast' t c → cast t c) :
    Ledger term vote cast' where
  bound := fun hc => h.bound (hsub hc)
  current := fun hc => h.current (hsub hc)
  unique := fun hc hc' => h.unique (hsub hc) (hsub hc')

/-- A later term starts with nothing cast in it, whatever the memory then says. -/
theorem advance (h : Ledger term vote cast) (vote' : Option C) (hlt : term < term') :
    Ledger term' vote' cast where
  bound := fun hc => (h.bound hc).trans hlt.le
  current := fun hc => absurd (h.bound hc) (not_le_of_gt hlt)
  unique := h.unique

/-- A ballot for `c` in the current term, which is still free or already `c`'s. -/
theorem grant {c : C} (h : Ledger term vote cast) (hfree : vote = none ∨ vote = some c)
    (hnew : ∀ {t x}, cast' t x → cast t x ∨ t = term ∧ x = c) :
    Ledger term (some c) cast' := by
  have hcurrent : ∀ {x}, cast term x → x = c := by
    intro x hx
    have hv := h.current hx
    rcases hfree with hfree | hfree
    · rw [hfree] at hv
      simp at hv
    · rw [hfree] at hv
      exact (Option.some.inj hv).symm
  refine ⟨?_, ?_, ?_⟩
  · intro t x hx
    rcases hnew hx with hold | ⟨ht, _⟩
    · exact h.bound hold
    · exact le_of_eq ht
  · intro x hx
    rcases hnew hx with hold | ⟨_, hc⟩
    · rw [hcurrent hold]
    · rw [hc]
  · intro t x y hx hy
    rcases hnew hx with hx | ⟨ht, hxc⟩ <;> rcases hnew hy with hy | ⟨ht', hyc⟩
    · exact h.unique hx hy
    · exact (hcurrent (show cast term x from ht' ▸ hx)).trans hyc.symm
    · exact hxc.trans (hcurrent (show cast term y from ht ▸ hy)).symm
    · rw [hxc, hyc]

end Ledger

/-! ## Majorities -/

variable {N : Type u} [DecidableEq N]

/-- Two majorities of one electorate share a voter. -/
theorem exists_mem_of_majorities {members : List N} {s t : Finset N}
    (hs : s ⊆ members.toFinset) (ht : t ⊆ members.toFinset)
    (hcs : members.length / 2 + 1 ≤ s.card) (hct : members.length / 2 + 1 ≤ t.card) :
    ∃ x, x ∈ s ∧ x ∈ t := by
  have hlen := members.toFinset_card_le
  have hsum : members.toFinset.card < s.card + t.card := by omega
  obtain ⟨x, hx⟩ := Finset.inter_nonempty_of_card_lt_card_add_card hs ht hsum
  exact ⟨x, Finset.mem_inter.mp hx⟩

end AethelDB.Lib
