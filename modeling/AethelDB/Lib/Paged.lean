import Mathlib

/-!
# Items laid out on pages

A long run of addresses is cut into pages, and every page starts with a header.
Items are placed one after the other at aligned addresses; the gap before an item
is filled, and an item that reaches the end of a page goes on behind the header of
the next. A reader that knows its address can undo this, because where headers and
gaps fall depends on the address alone.

`lay` places the bytes of one item, `entry` adds the gap before it, and `stream` is
a whole list of items; `items` says at which address the first byte of each one is
found. `Stands` is where a reader is after some of the items, and `whole` is how many
of them a beginning of the stream holds completely.
-/

namespace AethelDB.Lib

universe u

/-- A page size, the header that starts each page, and an alignment that divides
the page size. -/
structure Paging (α : Type u) where
  pageSize : Nat
  header : Nat → List α
  align : Nat
  fill : α
  header_pos : ∀ pos, 0 < (header pos).length
  header_lt : ∀ pos, (header pos).length < pageSize
  align_pos : 0 < align
  align_dvd : align ∣ pageSize

namespace Paging

variable {α : Type u} (P : Paging α)

theorem pageSize_pos : 0 < P.pageSize := lt_of_le_of_lt (Nat.zero_le _) (P.header_lt 0)

/-! ## One item -/

variable {pos : Nat}

/-- The header due at `pos`, if a page starts there. -/
def skip (pos : Nat) : List α := if pos % P.pageSize = 0 then P.header pos else []

/-- The address of the first byte of what is laid out from `pos` on. -/
def first (pos : Nat) : Nat := pos + (P.skip pos).length

/-- `xs` from address `pos` on, with the headers that fall into it. -/
def lay : Nat → List α → List α
  | _, [] => []
  | pos, x :: xs => P.skip pos ++ x :: lay (P.first pos + 1) xs

@[simp] theorem lay_nil (pos : Nat) : P.lay pos [] = [] := rfl

theorem lay_append (pos : Nat) (xs ys : List α) :
    P.lay pos (xs ++ ys) = P.lay pos xs ++ P.lay (pos + (P.lay pos xs).length) ys := by
  induction xs generalizing pos with
  | nil => rfl
  | cons x xs ih =>
    have hend : P.first pos + 1 + (P.lay (P.first pos + 1) xs).length
        = pos + ((P.skip pos).length + ((P.lay (P.first pos + 1) xs).length + 1)) := by
      unfold first
      omega
    simp only [List.cons_append, lay, ih, List.append_assoc, List.length_append, List.length_cons,
      hend]

theorem first_of_boundary (h : pos % P.pageSize = 0) :
    P.first pos = pos + (P.header pos).length := by
  rw [first, skip, if_pos h]

theorem first_of_inside (h : pos % P.pageSize ≠ 0) : P.first pos = pos := by
  rw [first, skip, if_neg h, List.length_nil, Nat.add_zero]

/-- Behind a header no page starts. -/
theorem inside_of_header (h : pos % P.pageSize = 0) :
    (pos + (P.header pos).length) % P.pageSize ≠ 0 := by
  have hpos := P.header_pos pos
  have hlt := P.header_lt pos
  rw [Nat.add_mod, h, Nat.zero_add, Nat.mod_mod, Nat.mod_eq_of_lt hlt]
  omega

/-- At the start of a page comes its header. -/
theorem lay_of_boundary (h : pos % P.pageSize = 0) {xs : List α} (hne : xs ≠ []) :
    P.lay pos xs = P.header pos ++ P.lay (pos + (P.header pos).length) xs := by
  have hinside := P.inside_of_header h
  obtain ⟨x, xs, rfl⟩ := List.exists_cons_of_ne_nil hne
  simp only [lay, first, skip, if_pos h, if_neg hinside, List.nil_append, List.length_nil,
    Nat.add_zero]

/-- Up to the end of the page nothing comes in between. -/
theorem lay_within {xs : List α} (h : pos % P.pageSize ≠ 0)
    (hfit : xs.length ≤ P.pageSize - pos % P.pageSize) : P.lay pos xs = xs := by
  induction xs generalizing pos with
  | nil => rfl
  | cons x xs ih =>
    have hlt := Nat.mod_lt pos P.pageSize_pos
    rw [List.length_cons] at hfit
    simp only [lay, first, skip, if_neg h, List.nil_append, List.length_nil, Nat.add_zero]
    by_cases hnil : xs = []
    · rw [hnil, lay_nil]
    · have hpos : 0 < xs.length := List.length_pos_iff.mpr hnil
      have hone : 1 % P.pageSize = 1 := Nat.mod_eq_of_lt (by omega)
      have hmod : (pos + 1) % P.pageSize = pos % P.pageSize + 1 := by
        rw [Nat.add_mod, hone, Nat.mod_eq_of_lt (by omega)]
      rw [ih (by omega) (by omega)]

/-- The next `k` bytes on a page, and the rest. -/
theorem lay_take {k : Nat} {xs : List α} (h : pos % P.pageSize ≠ 0) (hk : k ≤ xs.length)
    (hfit : k ≤ P.pageSize - pos % P.pageSize) :
    P.lay pos xs = xs.take k ++ P.lay (pos + k) (xs.drop k) := by
  have hlen : (xs.take k).length = k := by rw [List.length_take, Nat.min_eq_left hk]
  have hlay : P.lay pos (xs.take k) = xs.take k := P.lay_within h (by rw [hlen]; exact hfit)
  have hsplit := P.lay_append pos (xs.take k) (xs.drop k)
  rw [List.take_append_drop, hlay, hlen] at hsplit
  exact hsplit

theorem length_le_lay (pos : Nat) (xs : List α) : xs.length ≤ (P.lay pos xs).length := by
  induction xs generalizing pos with
  | nil => exact Nat.zero_le _
  | cons x xs ih =>
    have htail := ih (P.first pos + 1)
    simp only [lay, List.length_append, List.length_cons]
    omega

/-! ## Aligned items -/

variable {rs : List (List α)}

/-- How far `pos` is from the next aligned address. -/
def pad (pos : Nat) : Nat := (P.align - pos % P.align) % P.align

theorem pad_of_aligned (h : pos % P.align = 0) : P.pad pos = 0 := by
  rw [pad, h, Nat.sub_zero, Nat.mod_self]

theorem pad_of_unaligned (h : pos % P.align ≠ 0) : P.pad pos = P.align - pos % P.align := by
  have hlt := Nat.mod_lt pos P.align_pos
  rw [pad, Nat.mod_eq_of_lt (by omega)]

theorem aligned_add_pad (pos : Nat) : (pos + P.pad pos) % P.align = 0 := by
  have halign := P.align_pos
  by_cases h : pos % P.align = 0
  · rw [P.pad_of_aligned h, Nat.add_zero, h]
  · have hlt := Nat.mod_lt pos halign
    have hdiv := Nat.div_add_mod pos P.align
    rw [P.pad_of_unaligned h]
    have hsum : pos + (P.align - pos % P.align) = P.align * (pos / P.align + 1) := by
      rw [Nat.mul_add, Nat.mul_one]
      omega
    rw [hsum, Nat.mul_mod_right]

theorem pad_add_pad (pos : Nat) : P.pad (pos + P.pad pos) = 0 :=
  P.pad_of_aligned (P.aligned_add_pad pos)

/-- An item with the gap before it. -/
def entry (pos : Nat) (r : List α) : List α :=
  List.replicate (P.pad pos) P.fill ++ P.lay (pos + P.pad pos) r

theorem entry_of_aligned (h : P.pad pos = 0) (r : List α) : P.entry pos r = P.lay pos r := by
  rw [entry, h, List.replicate_zero, List.nil_append, Nat.add_zero]

theorem length_entry (pos : Nat) (r : List α) :
    (P.entry pos r).length = P.pad pos + (P.lay (pos + P.pad pos) r).length := by
  rw [entry, List.length_append, List.length_replicate]

/-- The address just past an item placed at `pos` or the next aligned address. -/
def next (pos : Nat) (r : List α) : Nat := pos + (P.entry pos r).length

/-- Items placed one after the other. -/
def stream : Nat → List (List α) → List α
  | _, [] => []
  | pos, r :: rs => P.entry pos r ++ stream (P.next pos r) rs

/-- The items with the addresses of their first bytes. -/
def items : Nat → List (List α) → List (Nat × List α)
  | _, [] => []
  | pos, r :: rs => (P.first (pos + P.pad pos), r) :: items (P.next pos r) rs

/-- The address just past the last item. -/
def fin : Nat → List (List α) → Nat
  | pos, [] => pos
  | pos, r :: rs => fin (P.next pos r) rs

theorem stream_append (pos : Nat) (rs rs' : List (List α)) :
    P.stream pos (rs ++ rs') = P.stream pos rs ++ P.stream (P.fin pos rs) rs' := by
  induction rs generalizing pos with
  | nil => rfl
  | cons r rs ih => simp only [List.cons_append, stream, fin, ih, List.append_assoc]

theorem items_append (pos : Nat) (rs rs' : List (List α)) :
    P.items pos (rs ++ rs') = P.items pos rs ++ P.items (P.fin pos rs) rs' := by
  induction rs generalizing pos with
  | nil => rfl
  | cons r rs ih => simp only [List.cons_append, items, fin, ih]

theorem length_items (pos : Nat) (rs : List (List α)) : (P.items pos rs).length = rs.length := by
  induction rs generalizing pos with
  | nil => rfl
  | cons r rs ih => exact congrArg Nat.succ (ih (P.next pos r))

theorem fin_eq (pos : Nat) (rs : List (List α)) : P.fin pos rs = pos + (P.stream pos rs).length := by
  induction rs generalizing pos with
  | nil => rfl
  | cons r rs ih =>
    rw [fin, ih, stream, List.length_append, next, Nat.add_assoc]

/-- The gap before the first item may as well have been passed. -/
theorem entry_of_pad (pos : Nat) (r : List α) :
    P.entry pos r = List.replicate (P.pad pos) P.fill ++ P.entry (pos + P.pad pos) r := by
  rw [P.entry_of_aligned (P.pad_add_pad pos), entry]

theorem next_of_pad (pos : Nat) (r : List α) : P.next (pos + P.pad pos) r = P.next pos r := by
  rw [next, next, P.entry_of_pad pos r, List.length_append, List.length_replicate, Nat.add_assoc]

theorem stream_of_pad (pos : Nat) (r : List α) (rs : List (List α)) :
    P.stream pos (r :: rs)
      = List.replicate (P.pad pos) P.fill ++ P.stream (pos + P.pad pos) (r :: rs) := by
  rw [stream, stream, P.next_of_pad, P.entry_of_pad, List.append_assoc]

theorem le_fin (pos : Nat) (rs : List (List α)) : pos ≤ P.fin pos rs := by
  rw [P.fin_eq]
  omega

theorem fin_append (pos : Nat) (rs rs' : List (List α)) :
    P.fin pos (rs ++ rs') = P.fin (P.fin pos rs) rs' := by
  induction rs generalizing pos with
  | nil => rfl
  | cons r rs ih => exact ih (P.next pos r)

theorem fin_concat (pos : Nat) (rs : List (List α)) (r : List α) :
    P.fin pos (rs ++ [r]) = P.next (P.fin pos rs) r := by
  rw [fin_append]
  rfl

/-- An item starts before the address just past it. -/
theorem first_lt_next (pos : Nat) {r : List α} (h : r ≠ []) :
    P.first (pos + P.pad pos) < P.next pos r := by
  obtain ⟨x, xs, rfl⟩ := List.exists_cons_of_ne_nil h
  rw [next, length_entry, first]
  simp only [lay, List.length_append, List.length_cons]
  omega

theorem le_of_mem_items {e : Nat × List α} (he : e ∈ P.items pos rs) : pos ≤ e.1 := by
  induction rs generalizing pos with
  | nil => nomatch he
  | cons r rs ih =>
    rcases List.mem_cons.mp he with rfl | he
    · show pos ≤ P.first (pos + P.pad pos)
      rw [first]
      omega
    · exact (Nat.le_add_right pos _).trans (ih he)

theorem lt_fin_of_mem_items (hne : ∀ r ∈ rs, r ≠ []) {e : Nat × List α} (he : e ∈ P.items pos rs) :
    e.1 < P.fin pos rs := by
  induction rs generalizing pos with
  | nil => nomatch he
  | cons r rs ih =>
    rcases List.mem_cons.mp he with rfl | he
    · exact (P.first_lt_next pos (hne r List.mem_cons_self)).trans_le (P.le_fin _ rs)
    · exact ih (fun r' hr' => hne r' (List.mem_cons_of_mem _ hr')) he

/-- The addresses of items go up. -/
theorem items_ascending (hne : ∀ r ∈ rs, r ≠ []) :
    (P.items pos rs).Pairwise fun a b => a.1 < b.1 := by
  induction rs generalizing pos with
  | nil => exact List.Pairwise.nil
  | cons r rs ih =>
    refine List.Pairwise.cons (fun e he => ?_) (ih fun r' hr' => hne r' (List.mem_cons_of_mem _ hr'))
    exact (P.first_lt_next pos (hne r List.mem_cons_self)).trans_le (P.le_of_mem_items he)

/-! ## Reading a stream -/

/-- Having read `done`, a reader stands just past it, or past the gap to the next
item. -/
def Stands (start : Nat) (done rest : List (List α)) (pos : Nat) : Prop :=
  pos = P.fin start done ∨ rest ≠ [] ∧ pos = P.fin start done + P.pad (P.fin start done)

namespace Stands

variable {P} {start pos : Nat} {done rs : List (List α)} {r : List α}

theorem fin_le {rest : List (List α)} (h : P.Stands start done rest pos) :
    P.fin start done ≤ pos := by
  rcases h with rfl | ⟨_, rfl⟩
  · exact le_rfl
  · exact Nat.le_add_right _ _

theorem next_eq (h : P.Stands start done (r :: rs) pos) :
    P.next pos r = P.next (P.fin start done) r := by
  rcases h with rfl | ⟨_, rfl⟩
  · rfl
  · exact P.next_of_pad _ r

theorem first_eq (h : P.Stands start done (r :: rs) pos) :
    P.first (pos + P.pad pos) = P.first (P.fin start done + P.pad (P.fin start done)) := by
  rcases h with rfl | ⟨_, rfl⟩
  · rfl
  · rw [P.pad_add_pad, Nat.add_zero]

/-- What the reader has before it. -/
theorem drop_stream {rest : List (List α)} (h : P.Stands start done rest pos) :
    (P.stream start (done ++ rest)).drop (pos - start) = P.stream pos rest := by
  have hfin := P.fin_eq start done
  rw [P.stream_append]
  rcases h with rfl | ⟨hne, rfl⟩
  · rw [show P.fin start done - start = (P.stream start done).length by omega, List.drop_left]
  · obtain ⟨r, rs, rfl⟩ := List.exists_cons_of_ne_nil hne
    obtain ⟨e, he⟩ : ∃ e, P.fin start done = e := ⟨_, rfl⟩
    rw [he, show e + P.pad e - start = (P.stream start done).length + P.pad e by omega,
      List.drop_length_add_append, P.stream_of_pad, List.drop_left' List.length_replicate]

/-- Passing the gap. -/
theorem pass_gap (h : P.Stands start done (r :: rs) pos) :
    P.Stands start done (r :: rs) (pos + P.pad pos) := by
  refine Or.inr ⟨List.cons_ne_nil r rs, ?_⟩
  rcases h with rfl | ⟨_, rfl⟩
  · rfl
  · rw [P.pad_add_pad, Nat.add_zero]

/-- Reading the next item. -/
theorem pass_item (h : P.Stands start done (r :: rs) pos) :
    P.Stands start (done ++ [r]) rs (P.next pos r) :=
  Or.inl (h.next_eq.trans (P.fin_concat start done r).symm)

end Stands

/-- How many of the items end at or before `limit`. -/
def whole : Nat → List (List α) → Nat → Nat
  | _, [], _ => 0
  | pos, r :: rs, limit => if P.next pos r ≤ limit then whole (P.next pos r) rs limit + 1 else 0

theorem whole_append {limit : Nat} {done : List (List α)} (rest : List (List α))
    (h : P.fin pos done ≤ limit) :
    P.whole pos (done ++ rest) limit = done.length + P.whole (P.fin pos done) rest limit := by
  induction done generalizing pos with
  | nil => rw [List.nil_append, List.length_nil, Nat.zero_add, fin]
  | cons r done ih =>
    have hle := P.le_fin (P.next pos r) done
    rw [fin] at h
    rw [List.cons_append, whole, if_pos (by omega), ih h, fin, List.length_cons]
    omega

end Paging

end AethelDB.Lib
