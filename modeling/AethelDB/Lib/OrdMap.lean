import Mathlib

/-!
# Ordered finite maps

A map kept as its association list, strictly increasing in the key. This is
what an in-order traversal of a search tree observes: every operation below is
specified by which `(key, value)` pairs it leaves behind, and iteration order
is the order of the list.

The invariant travels in the structure, so a map that is out of order or binds
a key twice cannot be written down, and no lemma asks for it. Membership in
`entries` is the working notion; `lookup` is only there for the places that
read one binding, and `lookup_eq_some_iff` converts.
-/

namespace AethelDB.Lib

universe u v

/-- A finite map as its strictly increasing association list. -/
structure OrdMap (K : Type u) (V : Type v) [LinearOrder K] where
  entries : List (K × V)
  sorted : entries.Pairwise (fun a b => a.1 < b.1)

namespace OrdMap

variable {K : Type u} {V : Type v} [LinearOrder K] {e : K × V} {k : K} {v : V} {m : OrdMap K V}

/-- Insert into a sorted association list, replacing an existing binding. -/
def insertL (k : K) (v : V) : List (K × V) → List (K × V)
  | [] => [(k, v)]
  | e :: l =>
    if k < e.1 then (k, v) :: e :: l
    else if k = e.1 then (k, v) :: l
    else e :: insertL k v l

/-- In a sorted list, insertion binds `k` to `v` and leaves other keys alone. -/
theorem mem_insertL :
    ∀ {l : List (K × V)}, l.Pairwise (fun a b => a.1 < b.1) →
      (e ∈ insertL k v l ↔ e = (k, v) ∨ (e ∈ l ∧ e.1 ≠ k)) := by
  intro l
  induction l with
  | nil => intro _; simp [insertL]
  | cons a l ih =>
    intro hs
    rw [List.pairwise_cons] at hs
    simp only [insertL]
    by_cases hlt : k < a.1
    · -- `k` precedes the whole list, so nothing is replaced
      have hne : ∀ x ∈ a :: l, x.1 ≠ k := by
        intro x hx
        rcases List.mem_cons.mp hx with rfl | hx
        · exact ne_of_gt hlt
        · exact ne_of_gt (lt_trans hlt (hs.1 x hx))
      rw [if_pos hlt, List.mem_cons]
      constructor
      · intro hx
        rcases hx with h | h
        · exact Or.inl h
        · exact Or.inr ⟨h, hne e h⟩
      · intro hx
        rcases hx with h | h
        · exact Or.inl h
        · exact Or.inr h.1
    · rw [if_neg hlt]
      by_cases heq : k = a.1
      · have hne : ∀ x ∈ l, x.1 ≠ k := by
          intro x hx
          rw [heq]
          exact ne_of_gt (hs.1 x hx)
        rw [if_pos heq, List.mem_cons, List.mem_cons]
        constructor
        · intro hx
          rcases hx with h | h
          · exact Or.inl h
          · exact Or.inr ⟨Or.inr h, hne e h⟩
        · intro hx
          rcases hx with h | ⟨rfl | h, hk⟩
          · exact Or.inl h
          · exact absurd heq.symm hk
          · exact Or.inr h
      · rw [if_neg heq, List.mem_cons, ih hs.2, List.mem_cons]
        constructor
        · intro hx
          rcases hx with rfl | h | h
          · exact Or.inr ⟨Or.inl rfl, fun hk => heq hk.symm⟩
          · exact Or.inl h
          · exact Or.inr ⟨Or.inr h.1, h.2⟩
        · intro hx
          rcases hx with h | ⟨h | h, hk⟩
          · exact Or.inr (Or.inl h)
          · exact Or.inl h
          · exact Or.inr (Or.inr ⟨h, hk⟩)

theorem insertL_sorted :
    ∀ {l : List (K × V)}, l.Pairwise (fun a b => a.1 < b.1) →
      (insertL k v l).Pairwise (fun a b => a.1 < b.1) := by
  intro l
  induction l with
  | nil => intro _; simp [insertL]
  | cons a l ih =>
    intro hs
    have hs' := List.pairwise_cons.mp hs
    simp only [insertL]
    by_cases hlt : k < a.1
    · rw [if_pos hlt, List.pairwise_cons]
      refine ⟨?_, hs⟩
      intro x hx
      rcases List.mem_cons.mp hx with rfl | hx
      · exact hlt
      · exact lt_trans hlt (hs'.1 x hx)
    · rw [if_neg hlt]
      by_cases heq : k = a.1
      · rw [if_pos heq, List.pairwise_cons]
        refine ⟨?_, hs'.2⟩
        intro x hx
        show k < x.1
        rw [heq]
        exact hs'.1 x hx
      · rw [if_neg heq, List.pairwise_cons]
        refine ⟨?_, ih hs'.2⟩
        intro x hx
        rcases (mem_insertL hs'.2).mp hx with rfl | ⟨hx, _⟩
        · exact lt_of_le_of_ne (not_lt.mp hlt) (fun h => heq h.symm)
        · exact hs'.1 x hx

/-- The map with no bindings. -/
def empty : OrdMap K V := ⟨[], List.Pairwise.nil⟩

def isEmpty (m : OrdMap K V) : Bool := m.entries.isEmpty

/-- Number of bindings. -/
def size (m : OrdMap K V) : Nat := m.entries.length

/-- Bind `k` to `v`, replacing an existing binding of `k`. -/
def insert (k : K) (v : V) (m : OrdMap K V) : OrdMap K V :=
  ⟨insertL k v m.entries, insertL_sorted m.sorted⟩

/-- The value bound to `k`. -/
def lookup (k : K) (m : OrdMap K V) : Option V :=
  (m.entries.find? fun e => decide (e.1 = k)).map Prod.snd

/-- The bindings whose key lies in `[lo, hi]`, in key order. -/
def range (lo hi : K) (m : OrdMap K V) : List (K × V) :=
  m.entries.filter fun e => decide (lo ≤ e.1 ∧ e.1 ≤ hi)

/-- Drop the binding of `k`, if any. -/
def remove (m : OrdMap K V) (k : K) : OrdMap K V :=
  ⟨m.entries.filter fun e => decide (e.1 ≠ k), m.sorted.filter _⟩

/-- Insert every pair of a list, in order: later pairs win. -/
def insertAll (m : OrdMap K V) (l : List (K × V)) : OrdMap K V :=
  l.foldl (fun m e => m.insert e.1 e.2) m

/-- Change every value in place. -/
def mapVal (g : K → V → V) (m : OrdMap K V) : OrdMap K V :=
  ⟨m.entries.map fun e => (e.1, g e.1 e.2), by
    rw [List.pairwise_map]
    exact m.sorted⟩

@[simp] theorem entries_empty : (empty : OrdMap K V).entries = [] := rfl

theorem mem_insert : e ∈ (m.insert k v).entries ↔ e = (k, v) ∨ (e ∈ m.entries ∧ e.1 ≠ k) :=
  mem_insertL m.sorted

theorem mem_range {lo hi : K} : e ∈ m.range lo hi ↔ e ∈ m.entries ∧ lo ≤ e.1 ∧ e.1 ≤ hi := by
  simp [range, List.mem_filter]

/-- A range scan comes out in key order. -/
theorem range_sorted (lo hi : K) (m : OrdMap K V) :
    (m.range lo hi).Pairwise (fun a b => a.1 < b.1) := m.sorted.filter _

/-- The last entry of a range is the one with the greatest key in it. -/
theorem getLast?_range_eq_some {lo hi : K} :
    (range lo hi m).getLast? = some e ↔
      e ∈ range lo hi m ∧ ∀ e' ∈ range lo hi m, e'.1 ≤ e.1 := by
  have hsorted := range_sorted lo hi m
  rcases List.eq_nil_or_concat (range lo hi m) with hnil | ⟨front, x, hlist⟩
  · rw [hnil]
    simp
  · rw [hlist] at hsorted ⊢
    rw [List.concat_eq_append, List.getLast?_concat, Option.some.injEq]
    rw [List.concat_eq_append] at hsorted
    have hlt : ∀ a ∈ front, a.1 < x.1 := fun a ha =>
      (List.pairwise_append.mp hsorted).2.2 a ha x (List.mem_singleton.mpr rfl)
    constructor
    · rintro rfl
      refine ⟨by simp, fun e' he' => ?_⟩
      rcases List.mem_append.mp he' with he' | he'
      · exact (hlt e' he').le
      · rw [List.mem_singleton.mp he']
    · rintro ⟨he, hmax⟩
      rcases List.mem_append.mp he with he | he
      · exact absurd (hlt e he) (not_lt.mpr (hmax x (by simp)))
      · exact (List.mem_singleton.mp he).symm

theorem mem_remove : e ∈ (m.remove k).entries ↔ e ∈ m.entries ∧ e.1 ≠ k := by
  simp [remove, List.mem_filter]

/-- The keys of a map are pairwise distinct. -/
theorem nodup_keys (m : OrdMap K V) : (m.entries.map Prod.fst).Nodup := by
  rw [List.Nodup, List.pairwise_map]
  exact m.sorted.imp (fun h => ne_of_lt h)

/-- A key has at most one binding. -/
theorem mem_unique {w : V} (hv : (k, v) ∈ m.entries) (hw : (k, w) ∈ m.entries) : v = w :=
  (List.inj_on_of_nodup_map m.nodup_keys hv hw rfl |> Prod.mk.inj).2

theorem lookup_eq_some_iff : m.lookup k = some v ↔ (k, v) ∈ m.entries := by
  unfold lookup
  constructor
  · intro h
    obtain ⟨e, he, hv⟩ := Option.map_eq_some_iff.mp h
    have hk : e.1 = k := by simpa using List.find?_some he
    have hmem := List.mem_of_find?_eq_some he
    rw [← hk, ← hv]
    exact hmem
  · intro h
    cases hf : m.entries.find? (fun e => decide (e.1 = k)) with
    | none =>
      have hnone := List.find?_eq_none.mp hf (k, v) h
      simp at hnone
    | some e =>
      have hk : e.1 = k := by simpa using List.find?_some hf
      have hmem : (k, e.2) ∈ m.entries := hk ▸ List.mem_of_find?_eq_some hf
      rw [Option.map_some, mem_unique h hmem]

/-- A lookup depends only on the bindings of its key. -/
theorem lookup_congr {m' : OrdMap K V} (h : ∀ v, (k, v) ∈ m.entries ↔ (k, v) ∈ m'.entries) :
    m.lookup k = m'.lookup k := by
  refine Option.ext fun v => ?_
  rw [lookup_eq_some_iff, lookup_eq_some_iff, h]

theorem lookup_insert (k k' : K) (v : V) (m : OrdMap K V) :
    (m.insert k v).lookup k' = if k' = k then some v else m.lookup k' := by
  refine Option.ext fun w => ?_
  rw [lookup_eq_some_iff, mem_insert]
  by_cases hk : k' = k
  · rw [if_pos hk]
    simp [hk, eq_comm]
  · rw [if_neg hk, lookup_eq_some_iff]
    simp [hk]

/-- Of several bindings under one key the last one stays. -/
theorem lookup_insertAll (k : K) (m : OrdMap K V) (l : List (K × V)) :
    (m.insertAll l).lookup k = (((l.filter fun e => e.1 = k).getLast?).map Prod.snd).or (m.lookup k) := by
  induction l using List.reverseRecOn with
  | nil => rfl
  | append_singleton l e ih =>
    have hstep : m.insertAll (l ++ [e]) = (m.insertAll l).insert e.1 e.2 := by
      rw [insertAll, List.foldl_append]
      rfl
    rw [hstep, lookup_insert, List.filter_append]
    by_cases hk : k = e.1
    · rw [if_pos hk, List.filter_cons_of_pos (by simp [hk])]
      simp
    · rw [if_neg hk, List.filter_cons_of_neg (by simpa using Ne.symm hk), List.filter_nil,
        List.append_nil, ih]

/-- Two sorted association lists with the same members are the same list. -/
theorem eq_of_mem_iff {l l' : List (K × V)} (hl : l.Pairwise (fun a b => a.1 < b.1))
    (hl' : l'.Pairwise (fun a b => a.1 < b.1)) (h : ∀ e, e ∈ l ↔ e ∈ l') : l = l' := by
  have hne : ∀ {l : List (K × V)}, l.Pairwise (fun a b => a.1 < b.1) → l.Nodup :=
    fun hs => hs.imp (fun {a b} hab heq => absurd (heq ▸ hab) (lt_irrefl _))
  have hp : l.Perm l' := (List.perm_ext_iff_of_nodup (hne hl) (hne hl')).mpr h
  exact hp.eq_of_pairwise (fun a b _ _ hab hba => absurd hab (lt_asymm hba)) hl hl'

/-- A map is known by what it gives for each key. -/
theorem ext_lookup {m' : OrdMap K V} (h : ∀ k, m.lookup k = m'.lookup k) : m = m' := by
  have hentries : m.entries = m'.entries := eq_of_mem_iff m.sorted m'.sorted fun e => by
    rw [← lookup_eq_some_iff, ← lookup_eq_some_iff, h]
  cases m
  cases m'
  exact (OrdMap.mk.injEq ..).mpr hentries

/-- A binding under a fresh key is one more entry. -/
theorem insert_perm (hk : k ∉ m.entries.map Prod.fst) :
    (m.insert k v).entries.Perm ((k, v) :: m.entries) := by
  have hnd : ((k, v) :: m.entries).Nodup := by
    rw [List.nodup_cons]
    exact ⟨fun h => hk (List.mem_map_of_mem h), m.nodup_keys.of_map _⟩
  rw [List.perm_ext_iff_of_nodup ((m.insert k v).nodup_keys.of_map _) hnd]
  intro e
  rw [mem_insert, List.mem_cons]
  constructor
  · intro hx
    rcases hx with h | h
    · exact Or.inl h
    · exact Or.inr h.1
  · intro hx
    rcases hx with h | h
    · exact Or.inl h
    · refine Or.inr ⟨h, ?_⟩
      intro h
      subst h
      exact hk (List.mem_map_of_mem h)

theorem mem_foldl_remove :
    ∀ {ks : List K}, e ∈ (ks.foldl remove m).entries ↔ e ∈ m.entries ∧ e.1 ∉ ks := by
  intro ks
  induction ks generalizing m with
  | nil => simp
  | cons k ks ih =>
    rw [List.foldl_cons, ih, mem_remove, List.mem_cons, not_or, and_assoc]

/-- With pairwise distinct keys that are also fresh, bulk insertion adds
exactly the listed pairs. -/
theorem insertAll_perm :
    ∀ {l : List (K × V)} {m : OrdMap K V}, (m.entries ++ l |>.map Prod.fst).Nodup →
      (m.insertAll l).entries.Perm (m.entries ++ l) := by
  intro l
  induction l with
  | nil => intro m _; simp [insertAll]
  | cons e l ih =>
    intro m hnd
    have hk : e.1 ∉ m.entries.map Prod.fst := by
      rw [List.map_append, List.nodup_append] at hnd
      intro hmem
      exact hnd.2.2 e.1 hmem e.1 (by simp) rfl
    have hp : (m.insert e.1 e.2).entries.Perm (e :: m.entries) := insert_perm hk
    have hmid : ((m.insert e.1 e.2).entries ++ l).Perm (m.entries ++ e :: l) :=
      (hp.append_right l).trans List.perm_middle.symm
    have hnd' : ((m.insert e.1 e.2).entries ++ l |>.map Prod.fst).Nodup :=
      (hmid.map Prod.fst).nodup_iff.mpr hnd
    exact (ih hnd').trans hmid

/-- Inserting the entries of a map one by one builds that map. -/
theorem insertAll_entries (m : OrdMap K V) : (empty : OrdMap K V).insertAll m.entries = m := by
  have hperm : ((empty : OrdMap K V).insertAll m.entries).entries.Perm m.entries :=
    insertAll_perm m.nodup_keys
  have hentries := eq_of_mem_iff (insertAll empty m.entries).sorted m.sorted fun e => hperm.mem_iff
  obtain ⟨entries, hsorted⟩ := m
  generalize insertAll empty entries = m' at hentries
  obtain ⟨entries', hsorted'⟩ := m'
  rw [mk.injEq]
  exact hentries

/-- Bulk insertion brings in nothing but the listed pairs. -/
theorem mem_of_mem_insertAll :
    ∀ {l : List (K × V)} {m : OrdMap K V}, e ∈ (m.insertAll l).entries → e ∈ m.entries ∨ e ∈ l := by
  intro l
  induction l with
  | nil => exact fun h => Or.inl h
  | cons a l ih =>
    intro m h
    rcases ih (m := m.insert a.1 a.2) h with h | h
    · rcases mem_insert.mp h with rfl | ⟨h, -⟩
      · exact Or.inr List.mem_cons_self
      · exact Or.inl h
    · exact Or.inr (List.mem_cons_of_mem _ h)

/-- Bulk insertion binds every key it is given and drops none. -/
theorem exists_mem_insertAll :
    ∀ {l : List (K × V)} {m : OrdMap K V}, (∃ v, (k, v) ∈ m.entries ∨ (k, v) ∈ l) →
      ∃ v, (k, v) ∈ (m.insertAll l).entries := by
  intro l
  induction l with
  | nil => exact fun h => h.imp fun v hv => hv.resolve_right List.not_mem_nil
  | cons a l ih =>
    rintro m ⟨v, hv⟩
    refine ih (m := m.insert a.1 a.2) ?_
    by_cases hk : k = a.1
    · exact ⟨a.2, Or.inl (mem_insert.mpr (Or.inl (by rw [hk])))⟩
    · refine ⟨v, ?_⟩
      rcases hv with hv | hv
      · exact Or.inl (mem_insert.mpr (Or.inr ⟨hv, hk⟩))
      · refine Or.inr ((List.mem_cons.mp hv).resolve_left fun h => hk ?_)
        rw [← h]

/-- Binding a key to the value it has changes nothing. -/
theorem insert_of_mem (h : (k, v) ∈ m.entries) : m.insert k v = m := by
  have hentries : (m.insert k v).entries = m.entries := by
    refine eq_of_mem_iff (m.insert k v).sorted m.sorted fun e => ?_
    rw [mem_insert]
    constructor
    · rintro (rfl | ⟨he, -⟩)
      · exact h
      · exact he
    · intro he
      by_cases hk : e.1 = k
      · obtain ⟨k', w⟩ := e
        subst hk
        exact Or.inl (by rw [mem_unique he h])
      · exact Or.inr ⟨he, hk⟩
  obtain ⟨entries, hsorted⟩ := m
  rw [insert, mk.injEq]
  exact hentries

end OrdMap

end AethelDB.Lib
