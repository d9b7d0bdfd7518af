import Mathlib

/-!
# The k-th largest of a list of reports

A majority rule over reported positions takes the reports in descending order and
reads off the one at index `k`: at least `k + 1` reports reach it
(`countP_kthLargest`), and it is the largest such position (`le_kthLargest`).
-/

namespace AethelDB.Lib

variable {k : Nat}

universe u

variable {α : Type u} [LinearOrder α]

/-- The element at index `k` in descending order. -/
def kthLargest (xs : List α) (k : Nat) : Option α := (xs.insertionSort (· ≥ ·))[k]?

/-- In a descending list, the first `k + 1` elements reach the one at `k`. -/
theorem countP_of_descending {ys : List α} {v : α} (hs : ys.Pairwise (· ≥ ·))
    (hk : ys[k]? = some v) : k + 1 ≤ ys.countP (fun x => decide (v ≤ x)) := by
  obtain ⟨hlt, hv⟩ := List.getElem?_eq_some_iff.mp hk
  have hfirst : ∀ x ∈ ys.take (k + 1), decide (v ≤ x) = true := by
    intro x hx
    obtain ⟨i, hi, rfl⟩ := List.getElem_of_mem hx
    rw [List.length_take] at hi
    rw [List.getElem_take, decide_eq_true_eq, ← hv]
    rcases Nat.lt_or_eq_of_le (show i ≤ k by omega) with hik | rfl
    · exact List.pairwise_iff_getElem.mp hs i k (by omega) hlt hik
    · exact le_rfl
  calc k + 1 = (ys.take (k + 1)).length := by rw [List.length_take]; omega
    _ = (ys.take (k + 1)).countP (fun x => decide (v ≤ x)) :=
      (List.countP_eq_length.mpr hfirst).symm
    _ ≤ ys.countP (fun x => decide (v ≤ x)) := (List.take_sublist _ _).countP_le

/-- At least `k + 1` elements reach the k-th largest. -/
theorem countP_kthLargest {xs : List α} {v : α} (h : kthLargest xs k = some v) :
    k + 1 ≤ xs.countP (fun x => decide (v ≤ x)) := by
  rw [← (List.perm_insertionSort (· ≥ ·) xs).countP_eq]
  exact countP_of_descending (List.pairwise_insertionSort (· ≥ ·) xs) h

/-- In a descending list, what more than `k` elements reach is reached at `k`. -/
theorem le_of_countP_descending {ys : List α} {w : α} (hs : ys.Pairwise (· ≥ ·))
    (hk : k < ys.countP (fun x => decide (w ≤ x))) : ∃ v, ys[k]? = some v ∧ w ≤ v := by
  have hlt : k < ys.length := lt_of_lt_of_le hk List.countP_le_length
  refine ⟨ys[k], List.getElem?_eq_getElem hlt, ?_⟩
  by_contra hbelow
  -- from `k` on nothing reaches `w`
  have hrest : (ys.drop k).countP (fun x => decide (w ≤ x)) = 0 := by
    rw [List.countP_eq_zero]
    intro x hx
    obtain ⟨i, hi, rfl⟩ := List.getElem_of_mem hx
    rw [List.length_drop] at hi
    rw [List.getElem_drop, decide_eq_true_eq]
    intro hreach
    rcases Nat.eq_zero_or_pos i with rfl | hpos
    · exact hbelow hreach
    · exact hbelow (hreach.trans
        (List.pairwise_iff_getElem.mp hs k (k + i) hlt (by omega) (by omega)))
  have hsplit : ys.countP (fun x => decide (w ≤ x))
      = (ys.take k).countP (fun x => decide (w ≤ x))
        + (ys.drop k).countP (fun x => decide (w ≤ x)) := by
    rw [← List.countP_append, List.take_append_drop]
  have htake : (ys.take k).countP (fun x => decide (w ≤ x)) ≤ k :=
    List.countP_le_length.trans (List.length_take_le k ys)
  omega

theorem le_kthLargest {xs : List α} {w : α} (h : k < xs.countP (fun x => decide (w ≤ x))) :
    ∃ v, kthLargest xs k = some v ∧ w ≤ v := by
  rw [← (List.perm_insertionSort (· ≥ ·) xs).countP_eq] at h
  exact le_of_countP_descending (List.pairwise_insertionSort (· ≥ ·) xs) h

/-- The k-th largest is the greatest position that more than `k` reports reach. -/
theorem isGreatest_kthLargest {xs : List α} {v : α} (h : kthLargest xs k = some v) :
    IsGreatest {w | k < xs.countP (fun x => decide (w ≤ x))} v := by
  refine ⟨countP_kthLargest h, fun w hw => ?_⟩
  obtain ⟨v', hv', hle⟩ := le_kthLargest hw
  rwa [Option.some.inj (h.symm.trans hv')]

/-- There is a k-th largest of more than `k` reports. -/
theorem exists_kthLargest {xs : List α} (h : k < xs.length) : ∃ v, kthLargest xs k = some v := by
  have hlen : k < (xs.insertionSort (· ≥ ·)).length := by rwa [List.length_insertionSort]
  exact ⟨_, List.getElem?_eq_getElem hlen⟩

end AethelDB.Lib
