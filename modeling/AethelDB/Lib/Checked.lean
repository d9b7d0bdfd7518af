import AethelDB.Lib.Reader

/-!
# Arithmetic and indexing that can panic

A call ends with a value, with an error of its own, or with a panic. `Checked` has all three, and
the operations here panic where the result leaves the integer type, or where an index or a
slice is out of range. A cast that would lose bits counts as a panic as well: the language
does not check it, but it is as wrong.

`PosReader` is a reader that keeps a position in a fixed list, instead of what is left of it,
so that moving on is arithmetic. `Follows q p bad` relates it to a reader of what is left:
`q` panics exactly where `bad` holds, and does what `p` does everywhere else.
-/

namespace AethelDB.Lib

universe u

/-- How a call fails. -/
inductive Fault (ε : Type u) where
  | error (e : ε)
  | panic (what : String)
deriving DecidableEq

/-- The result of a call that may panic. -/
abbrev Checked (ε : Type u) := Except (Fault ε)

namespace Checked

variable {ε β : Type}

/-- `a + b` in an unsigned type of `w` bits. -/
def add (w a b : Nat) : Checked ε Nat :=
  if a + b < 2 ^ w then .ok (a + b) else .error (.panic "attempt to add with overflow")

/-- `a - b` in an unsigned type. -/
def sub (a b : Nat) : Checked ε Nat :=
  if b ≤ a then .ok (a - b) else .error (.panic "attempt to subtract with overflow")

/-- `a * b` in an unsigned type of `w` bits. -/
def mul (w a b : Nat) : Checked ε Nat :=
  if a * b < 2 ^ w then .ok (a * b) else .error (.panic "attempt to multiply with overflow")

/-- `a % b`. -/
def rem (a b : Nat) : Checked ε Nat :=
  if b = 0 then .error (.panic "attempt to calculate the remainder with a divisor of zero")
  else .ok (a % b)

/-- `a` as a value of `w` bits. -/
def cast (w a : Nat) : Checked ε Nat :=
  if a < 2 ^ w then .ok a else .error (.panic "cast loses bits")

/-- `xs[i]`. -/
def get (xs : List β) (i : Nat) : Checked ε β :=
  match xs[i]? with
  | some x => .ok x
  | none => .error (.panic "index out of bounds")

/-- `&xs[i..j]`. -/
def slice (xs : List β) (i j : Nat) : Checked ε (List β) :=
  if i ≤ j ∧ j ≤ xs.length then .ok ((xs.drop i).take (j - i))
  else .error (.panic "range out of bounds")

/-- `xs[i..j].copy_from_slice(ys)`. -/
def copyFrom (xs : List β) (i j : Nat) (ys : List β) : Checked ε (List β) :=
  if i ≤ j ∧ j ≤ xs.length ∧ ys.length = j - i then .ok (xs.take i ++ ys ++ xs.drop j)
  else .error (.panic "source slice length does not match destination slice length")

theorem add_eq {w a b : Nat} (h : a + b < 2 ^ w) : (add w a b : Checked ε Nat) = .ok (a + b) :=
  if_pos h

theorem sub_eq {a b : Nat} (h : b ≤ a) : (sub a b : Checked ε Nat) = .ok (a - b) := if_pos h

theorem mul_eq {w a b : Nat} (h : a * b < 2 ^ w) : (mul w a b : Checked ε Nat) = .ok (a * b) :=
  if_pos h

theorem rem_eq {a b : Nat} (h : b ≠ 0) : (rem a b : Checked ε Nat) = .ok (a % b) := if_neg h

theorem cast_eq {w a : Nat} (h : a < 2 ^ w) : (cast w a : Checked ε Nat) = .ok a := if_pos h

theorem get_eq {xs : List β} {i : Nat} (h : i < xs.length) : (get xs i : Checked ε β) = .ok xs[i] := by
  unfold get
  rw [List.getElem?_eq_getElem h]

theorem slice_eq {xs : List β} {i j : Nat} (h : i ≤ j ∧ j ≤ xs.length) :
    (slice xs i j : Checked ε (List β)) = .ok ((xs.drop i).take (j - i)) :=
  if_pos h

theorem copyFrom_eq {xs ys : List β} {i j : Nat} (h : i ≤ j ∧ j ≤ xs.length ∧ ys.length = j - i) :
    (copyFrom xs i j ys : Checked ε (List β)) = .ok (xs.take i ++ ys ++ xs.drop j) :=
  if_pos h

/-- A call that does not panic, as one that might. -/
def lift {α : Type} : Except ε α → Checked ε α
  | .ok a => .ok a
  | .error e => .error (.error e)

/-- The outcome of a call that did not panic, for a caller that looks at it. -/
def outcome {α : Type} : Checked ε α → Checked ε (Except ε α)
  | .ok a => .ok (.ok a)
  | .error (.error e) => .ok (.error e)
  | .error (.panic what) => .error (.panic what)

theorem outcome_lift {α : Type} (x : Except ε α) : outcome (lift x) = .ok x := by
  cases x <;> rfl

@[simp] theorem bind_ok {α γ : Type} (a : α) (f : α → Checked ε γ) :
    ((.ok a : Checked ε α) >>= f) = f a := rfl

end Checked

/-! ## Readers with a position -/

/-- A computation that reads a fixed list from a position on. -/
abbrev PosReader (β ε : Type) := ReaderT (List β) (StateT Nat (Checked ε))

section Follows

variable {β ε α γ : Type}

/-- Everywhere in a list that fits into memory, `q` panics where `bad` holds of what is left,
and otherwise does what `p` does on what is left. -/
def Follows (q : PosReader β ε α) (p : Reader β ε α) (bad : List β → Prop) : Prop :=
  ∀ buf : List β, buf.length < 2 ^ 63 → ∀ pos ≤ buf.length,
    (bad (buf.drop pos) → ∃ what, q buf pos = .error (.panic what)) ∧
      (¬ bad (buf.drop pos) →
        (∃ e, p (buf.drop pos) = .error e ∧ q buf pos = .error (.error e)) ∨
          ∃ a pos', pos' ≤ buf.length ∧ p (buf.drop pos) = .ok (a, buf.drop pos') ∧
            q buf pos = .ok (a, pos'))

/-- Nothing panics. -/
def Safely (_ : List β) : Prop := False

namespace Follows

variable {bad : List β → Prop} {p : Reader β ε α} {q : PosReader β ε α} {f : α → Reader β ε γ}
  {g : α → PosReader β ε γ}

theorem congr {bad' : List β → Prop} (h : Follows q p bad) (hiff : ∀ xs, bad' xs ↔ bad xs) :
    Follows q p bad' := by
  intro buf hbuf pos hpos
  rw [hiff]
  exact h buf hbuf pos hpos

theorem pure (a : α) :
    Follows (Pure.pure a : PosReader β ε α) (Pure.pure a : Reader β ε α) Safely := by
  intro buf hbuf pos hpos
  exact ⟨False.elim, fun _ => Or.inr ⟨a, pos, hpos, rfl, rfl⟩⟩

theorem fail (e : ε) :
    Follows (fun _ _ => .error (.error e) : PosReader β ε α) (throw e : Reader β ε α) Safely := by
  intro buf hbuf pos hpos
  exact ⟨False.elim, fun _ => Or.inl ⟨e, rfl, rfl⟩⟩

/-- One after the other: a panic of the first, or one of the second where the first leads. -/
theorem bind {then_ : α → List β → Prop} (hq : Follows q p bad)
    (hg : ∀ a, Follows (g a) (f a) (then_ a)) :
    Follows (q >>= g) (p >>= f)
      fun xs => bad xs ∨ ∃ a rest, p xs = .ok (a, rest) ∧ then_ a rest := by
  intro buf hbuf pos hpos
  have hrun : (q >>= g) buf pos = (q buf pos >>= fun x => g x.1 buf x.2) := rfl
  have hread : (p >>= f) (buf.drop pos) = (p (buf.drop pos) >>= fun x => f x.1 x.2) := rfl
  obtain ⟨hbad, hgood⟩ := hq buf hbuf pos hpos
  by_cases hb : bad (buf.drop pos)
  · obtain ⟨what, hpanic⟩ := hbad hb
    refine ⟨fun _ => ⟨what, ?_⟩, fun hnot => absurd (Or.inl hb) hnot⟩
    rw [hrun, hpanic]
    rfl
  · rcases hgood hb with ⟨e, hp, hqe⟩ | ⟨a, pos', hpos', hp, hqa⟩
    · refine ⟨?_, fun _ => Or.inl ⟨e, ?_, ?_⟩⟩
      · rintro (h | ⟨a, rest, hok, _⟩)
        · exact absurd h hb
        · exact absurd (hp.symm.trans hok) (by simp)
      · rw [hread, hp]
        rfl
      · rw [hrun, hqe]
        rfl
    · have hrun' : (q >>= g) buf pos = g a buf pos' := by
        rw [hrun, hqa]
        rfl
      have hread' : (p >>= f) (buf.drop pos) = f a (buf.drop pos') := by
        rw [hread, hp]
        rfl
      obtain ⟨hbad', hgood'⟩ := hg a buf hbuf pos' hpos'
      rw [hrun', hread']
      refine ⟨?_, fun hnot => hgood' fun h => hnot (Or.inr ⟨a, _, hp, h⟩)⟩
      rintro (h | ⟨a', rest, hok, h⟩)
      · exact absurd h hb
      · obtain ⟨rfl, rfl⟩ := Prod.mk.inj (Except.ok.inj (hp.symm.trans hok))
        exact hbad' h

/-- Only the second part panics. -/
theorem bind_first {then_ : α → List β → Prop} (hq : Follows q p Safely)
    (hg : ∀ a, Follows (g a) (f a) (then_ a)) :
    Follows (q >>= g) (p >>= f) fun xs => ∃ a rest, p xs = .ok (a, rest) ∧ then_ a rest :=
  (hq.bind hg).congr fun _ => ⟨Or.inr, fun h => h.resolve_left id⟩

/-- Only the first part panics. -/
theorem bind_last (hq : Follows q p bad) (hg : ∀ a, Follows (g a) (f a) Safely) :
    Follows (q >>= g) (p >>= f) bad := by
  refine (hq.bind hg).congr fun xs => ⟨Or.inl, ?_⟩
  rintro (h | ⟨_, _, _, h⟩)
  · exact h
  · exact h.elim

/-- Two parts that never panic. -/
theorem bind_safely (hq : Follows q p Safely) (hg : ∀ a, Follows (g a) (f a) Safely) :
    Follows (q >>= g) (p >>= f) Safely :=
  hq.bind_last hg

theorem map_safely (hq : Follows q p Safely) (f : α → γ) :
    Follows (q >>= fun a => Pure.pure (f a)) (p >>= fun a => Pure.pure (f a)) Safely :=
  hq.bind_safely fun a => Follows.pure (f a)

theorem mapM_safely {q : α → PosReader β ε γ} {p : α → Reader β ε γ}
    (h : ∀ a, Follows (q a) (p a) Safely) (items : List α) :
    Follows (items.mapM q) (items.mapM p) Safely := by
  induction items with
  | nil => exact Follows.pure []
  | cons a items ih =>
    rw [List.mapM_cons, List.mapM_cons]
    exact (h a).bind_safely fun c => ih.map_safely (c :: ·)

end Follows

/-- A branch whose continuation was copied into both sides. -/
theorem PosReader.ite_bind (c : Prop) [Decidable c] (p q : PosReader β ε α)
    (f : α → PosReader β ε γ) :
    (if c then p >>= f else q >>= f) = (if c then p else q) >>= f := by
  split <;> rfl

end Follows

end AethelDB.Lib
