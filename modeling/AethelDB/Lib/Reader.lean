import Mathlib

/-!
# Readers of a list

A reader takes what it needs from the front of a list, or fails. Four things are said about
one. `Takes p xs a`: whatever follows, `p` takes exactly `xs` and returns `a`. `Spends p size`:
when `p` returns `a` it has taken at least `size a` elements. `Yields p Q`: whatever `p`
returns has `Q`. The first is for input that was written for the reader and the others for
input it was not written for; all go along the structure of a reader, step by step. A reader is
`Steady` if what follows does not change what it does; such a reader fails on every strict prefix
of what it takes (`Takes.error_of_prefix`).
-/

namespace AethelDB.Lib

universe u

/-- A computation that reads from the front of a list. -/
abbrev Reader (β ε : Type u) := StateT (List β) (Except ε)

variable {β ε α γ : Type u}

namespace Reader

variable {p : Reader β ε α}

theorem bind_ok {f : α → Reader β ε γ} {xs rest : List β} {c : γ}
    (h : (p >>= f) xs = .ok (c, rest)) :
    ∃ a mid, p xs = .ok (a, mid) ∧ f a mid = .ok (c, rest) := by
  cases hp : p xs with
  | error e =>
    have hbind : (p >>= f) xs = .error e := by
      show (p xs >>= fun x => f x.1 x.2) = _
      rw [hp]
      rfl
    exact absurd (hbind.symm.trans h) (by simp)
  | ok r =>
    obtain ⟨a, mid⟩ := r
    have hbind : (p >>= f) xs = f a mid := by
      show (p xs >>= fun x => f x.1 x.2) = _
      rw [hp]
      rfl
    exact ⟨a, mid, rfl, hbind.symm.trans h⟩

theorem bind_eq_ok {f : α → Reader β ε γ} {xs rest : List β} {c : γ} :
    (p >>= f) xs = .ok (c, rest) ↔ ∃ a mid, p xs = .ok (a, mid) ∧ f a mid = .ok (c, rest) := by
  refine ⟨bind_ok, ?_⟩
  rintro ⟨a, mid, hp, hf⟩
  show (p xs >>= fun x => f x.1 x.2) = _
  rw [hp]
  exact hf

theorem bind_of_ok (f : α → Reader β ε γ) {xs mid : List β} {a : α} (h : p xs = .ok (a, mid)) :
    (p >>= f) xs = f a mid := by
  show (p xs >>= fun x => f x.1 x.2) = _
  rw [h]
  rfl

theorem ite_bind (c : Prop) [Decidable c] (p q : Reader β ε α) (f : α → Reader β ε γ) :
    (if c then p >>= f else q >>= f) = (if c then p else q) >>= f := by
  split <;> rfl

/-- One after the other, `n` times. -/
def times (p : Reader β ε α) : Nat → Reader β ε (List α)
  | 0 => pure []
  | n + 1 => do
    let a ← p
    let rest ← times p n
    return a :: rest

end Reader

/-! ## Input written for the reader -/

/-- From any input that starts with `xs` the reader takes `xs` and returns `a`. -/
def Takes (p : Reader β ε α) (xs : List β) (a : α) : Prop :=
  ∀ rest, p (xs ++ rest) = .ok (a, rest)

namespace Takes

variable {p : Reader β ε α} {enc : α → List β} {items : List α}

theorem pure (a : α) : Takes (Pure.pure a : Reader β ε α) [] a := fun _ => rfl

theorem bind {f : α → Reader β ε γ} {xs ys : List β} {a : α} {c : γ} (hp : Takes p xs a)
    (hf : Takes (f a) ys c) : Takes (p >>= f) (xs ++ ys) c := by
  intro rest
  rw [List.append_assoc, Reader.bind_of_ok f (hp (ys ++ rest)), hf rest]

/-- What is read last decides what is returned. -/
theorem bind_pure {xs : List β} {a : α} (hp : Takes p xs a) (f : α → γ) :
    Takes (p >>= fun a => Pure.pure (f a)) xs (f a) := by
  intro rest
  rw [Reader.bind_of_ok _ (hp rest)]
  rfl

theorem map {xs : List β} {a : α} (hp : Takes p xs a) (f : α → γ) : Takes (f <$> p) xs (f a) := by
  rw [← bind_pure_comp]
  exact hp.bind_pure f

/-- One item after the other. -/
theorem mapM {f : α → Reader β ε γ} {out : α → γ} (h : ∀ a ∈ items, Takes (f a) (enc a) (out a)) :
    Takes (items.mapM f) (items.flatMap enc) (items.map out) := by
  induction items with
  | nil => exact Takes.pure []
  | cons a items ih =>
    rw [List.mapM_cons, List.flatMap_cons, List.map_cons]
    refine (h a (List.mem_cons_self ..)).bind ?_
    exact (ih fun b hb => h b (List.mem_cons_of_mem a hb)).bind_pure (out a :: ·)

/-- As many items as were written. -/
theorem times_map {p : Reader β ε γ} {out : α → γ} (h : ∀ a ∈ items, Takes p (enc a) (out a)) :
    Takes (p.times items.length) (items.flatMap enc) (items.map out) := by
  induction items with
  | nil => exact Takes.pure []
  | cons a items ih =>
    rw [List.length_cons, List.flatMap_cons, List.map_cons]
    refine (h a List.mem_cons_self).bind ?_
    exact (ih fun b hb => h b (List.mem_cons_of_mem a hb)).bind_pure (out a :: ·)

theorem times (h : ∀ a ∈ items, Takes p (enc a) a) :
    Takes (p.times items.length) (items.flatMap enc) items := by
  have hmap : Takes (p.times items.length) (items.flatMap enc) (items.map id) := times_map h
  rwa [List.map_id] at hmap

/-- A stream of items, and what the reader makes of the end of the input. -/
theorem times_end {p : Reader β ε γ} {out : α → γ} {last : γ}
    (h : ∀ a ∈ items, Takes p (enc a) (out a)) (hlast : p [] = .ok (last, [])) :
    p.times (items.length + 1) (items.flatMap enc) = .ok (items.map out ++ [last], []) := by
  induction items with
  | nil => exact (Reader.bind_of_ok _ hlast).trans rfl
  | cons a items ih =>
    rw [List.flatMap_cons, List.length_cons]
    refine (Reader.bind_of_ok _ (h a List.mem_cons_self _)).trans ?_
    exact (Reader.bind_of_ok _ (ih fun b hb => h b (List.mem_cons_of_mem a hb))).trans rfl

end Takes

/-! ## Any input -/

/-- When the reader returns `a`, it has taken at least `size a` elements. -/
def Spends (p : Reader β ε α) (size : α → Nat) : Prop :=
  ∀ (xs rest : List β) (a : α), p xs = .ok (a, rest) → rest.length + size a ≤ xs.length

namespace Spends

variable {size : α → Nat} {p : Reader β ε α}

theorem pure {a : α} (h : size a = 0) : Spends (Pure.pure a : Reader β ε α) size := by
  intro xs rest a' hok
  obtain ⟨rfl, rfl⟩ := Prod.mk.inj (Except.ok.inj hok)
  omega

theorem throw (e : ε) (size : α → Nat) :
    Spends (MonadExcept.throw e : Reader β ε α) size := by
  intro xs rest a h
  exact absurd h (by simp [MonadExcept.throw, throwThe, MonadExceptOf.throw, StateT.lift, Bind.bind,
    Except.bind])

theorem mono {size' : α → Nat} (h : Spends p size) (hle : ∀ a, size' a ≤ size a) :
    Spends p size' := by
  intro xs rest a hok
  have hsize := h xs rest a hok
  have hle' := hle a
  omega

theorem bind {f : α → Reader β ε γ} {total : γ → Nat} (hp : Spends p size)
    (hf : ∀ a, Spends (f a) fun c => total c - size a) : Spends (p >>= f) total := by
  intro xs rest c h
  obtain ⟨a, mid, hfirst, hthen⟩ := Reader.bind_ok h
  have hone := hp xs mid a hfirst
  have htwo := hf a mid rest c hthen
  dsimp only at htwo
  omega

theorem map {n : Nat} (h : Spends p fun _ => n) (f : α → γ) : Spends (f <$> p) fun _ => n := by
  rw [← bind_pure_comp]
  exact h.bind fun _ => Spends.pure (Nat.sub_self n)

theorem mapM {f : α → Reader β ε γ} {size : γ → Nat} (h : ∀ a, Spends (f a) size)
    (items : List α) : Spends (items.mapM f) fun out => (out.map size).sum := by
  induction items with
  | nil => exact Spends.pure rfl
  | cons a items ih =>
    rw [List.mapM_cons]
    refine (h a).bind fun c => ?_
    refine ih.bind fun out => Spends.pure ?_
    rw [List.map_cons, List.sum_cons]
    omega

end Spends

/-! ## Readers that look at no more than they take -/

/-- Whatever comes after what the reader took makes no difference to it. -/
def Steady (p : Reader β ε α) : Prop :=
  ∀ xs rest a, p xs = .ok (a, rest) → ∀ more, p (xs ++ more) = .ok (a, rest ++ more)

namespace Steady

variable {p : Reader β ε α}

theorem pure (a : α) : Steady (Pure.pure a : Reader β ε α) := by
  intro xs rest b h more
  obtain ⟨rfl, rfl⟩ := Prod.mk.inj (Except.ok.inj h)
  rfl

theorem throw (e : ε) : Steady (MonadExcept.throw e : Reader β ε α) := by
  intro xs rest a h
  exact absurd h (by simp [MonadExcept.throw, throwThe, MonadExceptOf.throw, StateT.lift, Bind.bind,
    Except.bind])

theorem bind {f : α → Reader β ε γ} (hp : Steady p) (hf : ∀ a, Steady (f a)) :
    Steady (p >>= f) := by
  intro xs rest c h more
  obtain ⟨a, mid, hfirst, hthen⟩ := Reader.bind_ok h
  rw [Reader.bind_of_ok f (hp xs mid a hfirst more)]
  exact hf a mid rest c hthen more

theorem map (hp : Steady p) (f : α → γ) : Steady (f <$> p) := by
  rw [← bind_pure_comp]
  exact hp.bind fun a => Steady.pure (f a)

theorem times (h : Steady p) (n : Nat) : Steady (p.times n) := by
  induction n with
  | zero => exact Steady.pure []
  | succ n ih => exact h.bind fun a => ih.bind fun rest => Steady.pure (a :: rest)

end Steady

/-- **Prefixes are refused.** A steady reader fails on every strict prefix of what it takes: it
would otherwise stop there on the whole input as well. -/
theorem Takes.error_of_prefix {p : Reader β ε α} {front more : List β} {a : α}
    (h : Takes p (front ++ more) a) (hp : Steady p) (hmore : more ≠ []) :
    ∃ e, p front = .error e := by
  cases hfront : p front with
  | error e => exact ⟨e, rfl⟩
  | ok r =>
    obtain ⟨b, rest⟩ := r
    have hwhole := h []
    rw [List.append_nil, hp front rest b hfront more] at hwhole
    have hnil : rest ++ more = [] := (Prod.mk.inj (Except.ok.inj hwhole)).2
    exact absurd (List.append_eq_nil_iff.mp hnil).2 hmore

/-! ## How a reader fails -/

/-- Every failure of `p` has `Q`. -/
def Fails (p : Reader β ε α) (Q : ε → Prop) : Prop := ∀ xs e, p xs = .error e → Q e

namespace Fails

variable {Q : ε → Prop}

theorem pure (a : α) : Fails (Pure.pure a : Reader β ε α) Q := by
  intro xs e h
  simp [Pure.pure, StateT.pure, Except.pure] at h

theorem throw {e : ε} (h : Q e) : Fails (MonadExcept.throw e : Reader β ε α) Q := by
  intro xs e' he
  rwa [← Except.error.inj he]

theorem bind {p : Reader β ε α} {f : α → Reader β ε γ} (hp : Fails p Q) (hf : ∀ a, Fails (f a) Q) :
    Fails (p >>= f) Q := by
  intro xs e h
  cases hfirst : p xs with
  | error e' =>
    have hbind : (p >>= f) xs = .error e' := by
      show (p xs >>= fun x => f x.1 x.2) = _
      rw [hfirst]
      rfl
    rw [← Except.error.inj (hbind.symm.trans h)]
    exact hp xs e' hfirst
  | ok r =>
    obtain ⟨a, mid⟩ := r
    exact hf a mid e ((Reader.bind_of_ok f hfirst).symm.trans h)

theorem map {p : Reader β ε α} (hp : Fails p Q) (f : α → γ) : Fails (f <$> p) Q := by
  rw [← bind_pure_comp]
  exact hp.bind fun a => Fails.pure (f a)

end Fails

/-! ## What a reader returns -/

/-- Every result of `p` has `Q`. -/
def Yields (p : Reader β ε α) (Q : α → Prop) : Prop :=
  ∀ xs rest a, p xs = .ok (a, rest) → Q a

namespace Yields

variable {Q : α → Prop} {R : γ → Prop}

theorem pure {a : α} (h : Q a) : Yields (Pure.pure a : Reader β ε α) Q := by
  intro xs rest b hb
  exact (Prod.mk.inj (Except.ok.inj hb)).1 ▸ h

theorem throw (e : ε) : Yields (MonadExcept.throw e : Reader β ε α) Q := by
  intro xs rest b hb
  exact absurd hb (by simp [MonadExcept.throw, throwThe, MonadExceptOf.throw, StateT.lift, Bind.bind,
    Except.bind])

theorem bind {p : Reader β ε α} {f : α → Reader β ε γ} (hp : Yields p Q)
    (hf : ∀ a, Q a → Yields (f a) R) : Yields (p >>= f) R := by
  intro xs rest c hc
  obtain ⟨a, mid, ha, hfa⟩ := Reader.bind_ok hc
  exact hf a (hp xs mid a ha) mid rest c hfa

/-- Only the last step counts. -/
theorem bind_last {p : Reader β ε α} {f : α → Reader β ε γ}
    (hf : ∀ a, Yields (f a) R) : Yields (p >>= f) R := by
  intro xs rest c hc
  obtain ⟨a, mid, -, hfa⟩ := Reader.bind_ok hc
  exact hf a mid rest c hfa

theorem mapM {p : α → Reader β ε γ} (h : ∀ a, Yields (p a) R) (items : List α) :
    Yields (items.mapM p) fun cs => ∀ c ∈ cs, R c := by
  induction items with
  | nil => exact Yields.pure fun c hc => absurd hc (by simp)
  | cons a items ih =>
    rw [List.mapM_cons]
    exact (h a).bind fun c hc => ih.bind fun cs hcs => Yields.pure (List.forall_mem_cons.mpr ⟨hc, hcs⟩)

end Yields

end AethelDB.Lib
