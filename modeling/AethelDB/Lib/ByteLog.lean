import Mathlib

/-!
# Byte logs

A byte log is what a write-ahead log is for: a run of bytes that starts somewhere
on an address line and only ever grows at its end. A *blank* log has no position
yet; the first append seeds it anywhere.

`Agree a b f` says that `b` has every byte that `a` ought to have below `f`, with
`a`'s values. It is the relation behind "flushed up to `f`" reports, and it
survives any growth of either log (`Agree.grow`), which is what lets reports be
counted long after they were made.

`copyAt` is the in-place write both to pages and to segment files.
-/

namespace AethelDB.Lib

universe u

variable {α : Type u}

/-! ## Overwriting a stretch of a list -/

/-- `xs` with `ys` written over it from position `i` on. -/
def copyAt (xs : List α) (i : Nat) (ys : List α) : List α :=
  xs.take i ++ ys ++ xs.drop (i + ys.length)

theorem copyAt_length {xs ys : List α} {i : Nat} (h : i + ys.length ≤ xs.length) :
    (copyAt xs i ys).length = xs.length := by
  simp only [copyAt, List.length_append, List.length_take, List.length_drop]
  omega

/-- Inside the stretch the new bytes are found. -/
theorem getElem?_copyAt_inside {xs ys : List α} {i k : Nat} (h : i ≤ xs.length)
    (hlow : i ≤ k) (hhigh : k < i + ys.length) : (copyAt xs i ys)[k]? = ys[k - i]? := by
  have hlen : (xs.take i).length = i := by
    rw [List.length_take]
    omega
  rw [copyAt, List.append_assoc, List.getElem?_append_right (by omega), hlen,
    List.getElem?_append_left (by omega)]

/-- Outside it nothing changes. -/
theorem getElem?_copyAt_outside {xs ys : List α} {i k : Nat} (h : i ≤ xs.length)
    (hk : k < i ∨ i + ys.length ≤ k) : (copyAt xs i ys)[k]? = xs[k]? := by
  have hlen : (xs.take i).length = i := by
    rw [List.length_take]
    omega
  rw [copyAt, List.append_assoc]
  rcases hk with hk | hk
  · rw [List.getElem?_append_left (by omega), List.getElem?_take_of_lt hk]
  · rw [List.getElem?_append_right (by omega), hlen, List.getElem?_append_right (by omega),
      List.getElem?_drop]
    congr 1
    omega

/-! ## Logs -/

/-- A run of bytes from position `seed` on. -/
structure ByteLog (α : Type u) where
  seed : Nat
  bytes : List α

namespace ByteLog

variable {l l' : ByteLog α} {p start : Nat} {data : List α}

/-- The empty log at position zero, which has not been seeded. -/
def blank : ByteLog α := ⟨0, []⟩

def IsBlank (l : ByteLog α) : Prop := l.seed = 0 ∧ l.bytes = []

/-- The position just past the last byte. -/
def fin (l : ByteLog α) : Nat := l.seed + l.bytes.length

/-- The byte at an absolute position. -/
def byteAt (l : ByteLog α) (p : Nat) : Option α :=
  if l.seed ≤ p then l.bytes[p - l.seed]? else none

instance decidableIsBlank (l : ByteLog α) : Decidable l.IsBlank :=
  decidable_of_iff (l.seed = 0 ∧ l.bytes.isEmpty = true) (by simp [IsBlank])

/-- Append `data` at `start`: anywhere on a blank log, else at the end. -/
def append (l : ByteLog α) (start : Nat) (data : List α) : Option (ByteLog α) :=
  if l.IsBlank then some ⟨start, data⟩
  else if start = l.fin then some ⟨l.seed, l.bytes ++ data⟩
  else none

theorem byteAt_eq_some_iff {b : α} :
    l.byteAt p = some b ↔ l.seed ≤ p ∧ l.bytes[p - l.seed]? = some b := by
  unfold byteAt
  split
  · next h => simp [h]
  · next h => simp [h]

/-- A log has exactly the bytes from its seed to its end. -/
theorem byteAt_isSome_iff : (l.byteAt p).isSome = true ↔ l.seed ≤ p ∧ p < l.fin := by
  unfold byteAt fin
  split
  · next h =>
    rw [Option.isSome_iff_ne_none, ne_eq, List.getElem?_eq_none_iff]
    omega
  · next h => simp [h]

theorem isBlank_iff_fin : l.IsBlank ↔ l.fin = 0 := by
  rw [IsBlank, fin, Nat.add_eq_zero_iff, List.length_eq_zero_iff]

theorem byteAt_of_blank (h : l.IsBlank) (p : Nat) : l.byteAt p = none := by
  unfold byteAt
  rw [h.2]
  split <;> rfl

/-- `l'` has every byte of `l`, and the same seed unless `l` had none. -/
structure Grows (l l' : ByteLog α) : Prop where
  keeps : ∀ {p b}, l.byteAt p = some b → l'.byteAt p = some b
  seed : l'.seed = l.seed ∨ l.IsBlank

theorem Grows.refl (l : ByteLog α) : Grows l l := ⟨fun h => h, Or.inl rfl⟩

theorem Grows.isBlank (h : Grows l l') (hb : l'.IsBlank) : l.IsBlank := by
  rcases h.seed with hseed | hblank
  · refine ⟨hseed.symm.trans hb.1, List.eq_nil_iff_length_eq_zero.mpr ?_⟩
    by_contra hne
    obtain ⟨x, hx⟩ : ∃ x, l.byteAt l.seed = some x :=
      Option.isSome_iff_exists.mp (byteAt_isSome_iff.mpr ⟨le_rfl, by unfold fin; omega⟩)
    exact absurd (h.keeps hx) (by simp [byteAt_of_blank hb])
  · exact hblank

theorem Grows.trans {l'' : ByteLog α} (h : Grows l l') (h' : Grows l' l'') : Grows l l'' where
  keeps := fun hp => h'.keeps (h.keeps hp)
  seed := by
    rcases h'.seed with hseed' | hblank
    · rcases h.seed with hseed | hblank
      · exact Or.inl (hseed'.trans hseed)
      · exact Or.inr hblank
    · exact Or.inr (h.isBlank hblank)

theorem Grows.fin_le (h : Grows l l') : l.fin ≤ l'.fin := by
  unfold fin
  rcases h.seed with hseed | hblank
  · by_cases hnil : l.bytes.length = 0
    · omega
    · -- the last byte is still there
      have hlast : l.seed ≤ l.fin - 1 ∧ l.fin - 1 < l.fin := by unfold fin; omega
      obtain ⟨x, hx⟩ := Option.isSome_iff_exists.mp (byteAt_isSome_iff.mpr hlast)
      have hx' := byteAt_isSome_iff.mp (Option.isSome_iff_exists.mpr ⟨x, h.keeps hx⟩)
      unfold fin at hx'
      omega
  · rw [hblank.1, hblank.2]
    exact Nat.zero_le _

theorem grows_append (h : l.append start data = some l') : Grows l l' := by
  unfold append at h
  split at h
  · next hb => exact ⟨fun hp => absurd hp (by simp [byteAt_of_blank hb]), Or.inr hb⟩
  · split at h
    · obtain rfl := Option.some.inj h
      refine ⟨?_, Or.inl rfl⟩
      intro p b hp
      obtain ⟨hle, hb⟩ := byteAt_eq_some_iff.mp hp
      refine byteAt_eq_some_iff.mpr ⟨hle, ?_⟩
      show (l.bytes ++ data)[p - l.seed]? = some b
      rw [List.getElem?_append_left (List.getElem?_eq_some_iff.mp hb).1]
      exact hb
    · simp at h

/-- The appended bytes are found where they were put. -/
theorem byteAt_append (h : l.append start data = some l') (hlow : start ≤ p) :
    l'.byteAt p = data[p - start]? := by
  unfold append at h
  split at h
  · obtain rfl := Option.some.inj h
    exact if_pos hlow
  · split at h
    · next hs =>
      obtain rfl := Option.some.inj h
      have hfin : start = l.seed + l.bytes.length := hs
      show (if l.seed ≤ p then (l.bytes ++ data)[p - l.seed]? else none) = _
      rw [if_pos (by omega), List.getElem?_append_right (by omega)]
      congr 1
      omega
    · simp at h

/-- A log extended at its end has its own bytes and the new ones. -/
theorem byteAt_extend {b : α} :
    ByteLog.byteAt ⟨l.seed, l.bytes ++ data⟩ p = some b ↔
      l.byteAt p = some b ∨ l.fin ≤ p ∧ data[p - l.fin]? = some b := by
  rw [byteAt_eq_some_iff, byteAt_eq_some_iff, fin]
  dsimp only
  by_cases hp : p - l.seed < l.bytes.length
  · rw [List.getElem?_append_left hp]
    constructor
    · exact Or.inl
    · intro h
      rcases h with h | ⟨hle, _⟩
      · exact h
      · omega
  · have hnone : l.bytes[p - l.seed]? = none := List.getElem?_eq_none (by omega)
    rw [List.getElem?_append_right (by omega), hnone, Nat.sub_sub]
    constructor
    · rintro ⟨hle, hb⟩
      exact Or.inr ⟨by omega, hb⟩
    · intro h
      rcases h with ⟨_, h⟩ | ⟨hle, hb⟩
      · simp at h
      · exact ⟨by omega, hb⟩

/-- A byte after an append was there before or came with it. -/
theorem byteAt_append_cases (h : l.append start data = some l') {b : α}
    (hb : l'.byteAt p = some b) : l.byteAt p = some b ∨ start ≤ p ∧ data[p - start]? = some b := by
  unfold append at h
  split at h
  · obtain rfl := Option.some.inj h
    exact Or.inr (byteAt_eq_some_iff.mp hb)
  · split at h
    · next hs =>
      obtain rfl := Option.some.inj h
      rw [hs]
      exact byteAt_extend.mp hb
    · simp at h

theorem fin_extend (l : ByteLog α) (data : List α) :
    ByteLog.fin ⟨l.seed, l.bytes ++ data⟩ = l.fin + data.length := by
  simp only [fin, List.length_append, Nat.add_assoc]

theorem fin_append (h : l.append start data = some l') : l'.fin = start + data.length := by
  unfold append at h
  split at h
  · obtain rfl := Option.some.inj h
    rfl
  · split at h
    · next hs =>
      obtain rfl := Option.some.inj h
      show l.seed + (l.bytes ++ data).length = _
      rw [hs, List.length_append, fin, Nat.add_assoc]
    · simp at h

/-! ## Slices -/

variable {n : Nat}

/-- The `n` bytes from position `p` on. -/
def slice (l : ByteLog α) (p n : Nat) : List α := (l.bytes.drop (p - l.seed)).take n

theorem length_slice (hlow : l.seed ≤ p) (hhigh : p + n ≤ l.fin) : (l.slice p n).length = n := by
  unfold fin at hhigh
  rw [slice, List.length_take, List.length_drop]
  omega

theorem getElem?_slice {k : Nat} (hlow : l.seed ≤ p) (hk : k < n) :
    (l.slice p n)[k]? = l.byteAt (p + k) := by
  rw [slice, List.getElem?_take_of_lt hk, List.getElem?_drop, byteAt, if_pos (by omega)]
  congr 1
  omega

/-- A log cut down to `n` bytes from `p` on. -/
def cut (l : ByteLog α) (p n : Nat) : ByteLog α := ⟨p, l.slice p n⟩

theorem byteAt_cut {q : Nat} {b : α} (h : (l.cut p n).byteAt q = some b) (hlow : l.seed ≤ p) :
    p ≤ q ∧ q < p + n ∧ l.byteAt q = some b := by
  obtain ⟨hle, hb⟩ := byteAt_eq_some_iff.mp h
  have hle : p ≤ q := hle
  have hb : (l.slice p n)[q - p]? = some b := hb
  have hlt := (List.getElem?_eq_some_iff.mp hb).1
  rw [slice, List.length_take] at hlt
  rw [getElem?_slice hlow (by omega), show p + (q - p) = q by omega] at hb
  exact ⟨hle, by omega, hb⟩

theorem byteAt_cut_eq {q : Nat} (hlow : l.seed ≤ p) (hq : p ≤ q) :
    (l.cut p n).byteAt q = if q < p + n then l.byteAt q else none := by
  show (if p ≤ q then (l.slice p n)[q - p]? else none) = _
  rw [if_pos hq]
  split
  · rw [getElem?_slice hlow (by omega), Nat.add_sub_cancel' hq]
  · rw [slice, List.getElem?_take_eq_none (by omega)]

theorem fin_cut (hlow : l.seed ≤ p) (hhigh : p + n ≤ l.fin) : (l.cut p n).fin = p + n := by
  show p + (l.slice p n).length = p + n
  rw [length_slice hlow hhigh]

theorem cut_zero (l : ByteLog α) (p : Nat) : l.cut p 0 = ⟨p, []⟩ := by
  rw [cut, slice, List.take_zero]

/-- From `start` on, `l` has only bytes of `xs`, laid out from `start` on. -/
def Carries (l : ByteLog α) (start : Nat) (xs : List α) : Prop :=
  ∀ p b, start ≤ p → l.byteAt p = some b → xs[p - start]? = some b

theorem carries_of_isPrefix (start : Nat) {bytes xs : List α} (h : bytes <+: xs) :
    Carries ⟨start, bytes⟩ start xs := by
  intro p b hp hb
  obtain ⟨_, hb⟩ := byteAt_eq_some_iff.mp hb
  obtain ⟨rest, rfl⟩ := h
  rw [List.getElem?_append_left (List.getElem?_eq_some_iff.mp hb).1]
  exact hb

theorem Carries.of_grows {xs : List α} (h : Carries l' start xs) (hg : Grows l l') :
    Carries l start xs := fun p b hp hb => h p b hp (hg.keeps hb)

theorem Carries.slice_eq {xs : List α} (h : Carries l start xs) (hstart : start ≤ p)
    (hlow : l.seed ≤ p) (hhigh : p + n ≤ l.fin) : l.slice p n = (xs.drop (p - start)).take n := by
  refine List.ext_getElem? ?_
  intro k
  by_cases hk : k < n
  · obtain ⟨b, hb⟩ := Option.isSome_iff_exists.mp
      (byteAt_isSome_iff.mpr (show l.seed ≤ p + k ∧ p + k < l.fin by omega))
    have hx := h (p + k) b (by omega) hb
    rw [getElem?_slice hlow hk, hb, List.getElem?_take_of_lt hk, List.getElem?_drop, ← hx]
    congr 1
    omega
  · rw [List.getElem?_take_eq_none (by omega), List.getElem?_eq_none]
    rw [length_slice hlow hhigh]
    omega

/-! ## Agreement -/

variable {a b b' : ByteLog α}

/-- `b` has every byte from `a`'s seed up to `f`, with `a`'s value. -/
def Agree (a b : ByteLog α) (f : Nat) : Prop :=
  ∀ p, a.seed ≤ p → p < f → ∃ x, a.byteAt p = some x ∧ b.byteAt p = some x

theorem agree_zero (a b : ByteLog α) : Agree a b 0 := by
  intro p _ hp
  omega

/-- A log agrees with itself up to its end. -/
theorem agree_self (a : ByteLog α) : Agree a a a.fin := by
  intro p hlow hhigh
  obtain ⟨x, hx⟩ := Option.isSome_iff_exists.mp (byteAt_isSome_iff.mpr ⟨hlow, hhigh⟩)
  exact ⟨x, hx, hx⟩

/-- Agreement survives growth on both sides. -/
theorem Agree.grow {a' : ByteLog α} {f : Nat} (h : Agree a b f) (ha : Grows a a')
    (hb : Grows b b') : Agree a' b' f := by
  intro p hlow hhigh
  rcases ha.seed with hseed | hblank
  · obtain ⟨x, hxa, hxb⟩ := h p (hseed ▸ hlow) hhigh
    exact ⟨x, ha.keeps hxa, hb.keeps hxb⟩
  · -- a blank log agrees up to zero at most
    obtain ⟨x, hx, _⟩ := h 0 (by rw [hblank.1]) (by omega)
    simp [byteAt_of_blank hblank] at hx

/-- `l` has the bytes `data` from `start` on. -/
def HasRun (l : ByteLog α) (start : Nat) (data : List α) : Prop :=
  ∀ k b, data[k]? = some b → l.byteAt (start + k) = some b

theorem HasRun.grow (h : HasRun l start data) (hg : Grows l l') :
    HasRun l' start data := fun k b hk => hg.keeps (h k b hk)

theorem HasRun.append {xs ys : List α} (h : HasRun l start xs)
    (h' : HasRun l (start + xs.length) ys) : HasRun l start (xs ++ ys) := by
  intro k b hk
  by_cases hlt : k < xs.length
  · rw [List.getElem?_append_left hlt] at hk
    exact h k b hk
  · rw [List.getElem?_append_right (by omega)] at hk
    have hb := h' _ b hk
    rw [show start + xs.length + (k - xs.length) = start + k by omega] at hb
    exact hb

theorem hasRun_append (h : l.append start data = some l') : HasRun l' start data := by
  intro k b hk
  rw [byteAt_append h (Nat.le_add_right _ _), Nat.add_sub_cancel_left]
  exact hk

theorem hasRun_extend (l : ByteLog α) (data : List α) :
    HasRun ⟨l.seed, l.bytes ++ data⟩ l.fin data := by
  intro k b hk
  refine byteAt_extend.mpr (Or.inr ⟨Nat.le_add_right _ _, ?_⟩)
  rw [Nat.add_sub_cancel_left]
  exact hk

/-- Appending a run of `a` to a log that agrees with `a` up to the run extends
the agreement over the run. -/
theorem Agree.append (h : Agree a b start) (hrun : HasRun a start data)
    (happ : b.append start data = some b') : Agree a b' (start + data.length) := by
  intro p hlow hhigh
  by_cases hp : p < start
  · obtain ⟨x, hxa, hxb⟩ := h p hlow hp
    exact ⟨x, hxa, (grows_append happ).keeps hxb⟩
  · have hk : p - start < data.length := by omega
    have hx : data[p - start]? = some data[p - start] := List.getElem?_eq_getElem hk
    have ha := hrun (p - start) _ hx
    rw [show start + (p - start) = p by omega] at ha
    exact ⟨_, ha, (byteAt_append happ (by omega)).trans hx⟩

/-! ## Vouching for a position -/

/-- `b` reaches `f`, and agrees with `a` up to there. -/
structure Vouches (a b : ByteLog α) (f : Nat) : Prop where
  agree : Agree a b f
  reached : f ≤ b.fin

theorem vouches_zero (a b : ByteLog α) : Vouches a b 0 := ⟨agree_zero a b, Nat.zero_le _⟩

theorem vouches_self (a : ByteLog α) : Vouches a a a.fin := ⟨agree_self a, le_rfl⟩

theorem Vouches.grow {a' : ByteLog α} {f : Nat} (h : Vouches a b f) (ha : Grows a a')
    (hb : Grows b b') : Vouches a' b' f :=
  ⟨h.agree.grow ha hb, h.reached.trans hb.fin_le⟩

/-- Appending a run of `a` to a log that agrees with `a` up to the run. -/
theorem Agree.vouches_append (h : Agree a b start) (hrun : HasRun a start data)
    (happ : b.append start data = some b') : Vouches a b' (start + data.length) :=
  ⟨h.append hrun happ, (fin_append happ).symm.le⟩

end ByteLog

end AethelDB.Lib
