import Mathlib

/-!
# Two parties over a reliable stream

A party of a conversation is a tree of what it does next (`Proc`): it is done, it writes, or it
waits for some number of bytes. Two parties are connected by two queues that lose nothing and
keep the order. A party that has nothing to read yet waits; once the other one is done, the
stream has ended, and a read that is left short learns that.

Which party moves when is up to the scheduler. It does not matter: moves of the two parties
commute (`Duplex.diamond`), so that a conversation that comes to an end in one order comes to
the same end in every order, as long as the scheduler forgets neither party
(`Duplex.eventually`).
-/

namespace AethelDB.Lib

variable {β ε ε' α α' γ : Type}

/-! ## One party -/

/-- What a party does next. -/
inductive Proc (β ε α : Type) where
  | done (result : Except ε α)
  | write (bytes : List β) (next : Proc β ε α)
  /-- Wait for `n` bytes; `none` if the stream ends before. -/
  | read (n : Nat) (next : Option (List β) → Proc β ε α)

namespace Proc

protected def bind : Proc β ε α → (α → Proc β ε γ) → Proc β ε γ
  | done (.ok a), f => f a
  | done (.error e), _ => done (.error e)
  | write bytes p, f => write bytes (p.bind f)
  | read n p, f => read n fun bytes => (p bytes).bind f

instance : Monad (Proc β ε) where
  pure a := done (.ok a)
  bind := Proc.bind

/-- A computation that does not touch the stream. -/
def lift (result : Except ε α) : Proc β ε α := done result

def writeAll (bytes : List β) : Proc β ε Unit := write bytes (done (.ok ()))

def readExact (eof : ε) (n : Nat) : Proc β ε (List β) :=
  read n fun
    | some bytes => done (.ok bytes)
    | none => done (.error eof)

/-- What the party returns, once it is done. -/
def result : Proc β ε α → Option (Except ε α)
  | done r => some r
  | _ => none

/-- What the party returns when the other side sends `input` and nothing more. -/
def runOn : Proc β ε α → List β → Except ε α
  | done r, _ => r
  | write _ p, input => p.runOn input
  | read n p, input =>
    if n ≤ input.length then (p (some (input.take n))).runOn (input.drop n) else (p none).runOn []

/-- One move: the party after it, what is left of its input and what it sends. Nothing, if it is
done or has to wait; `ended` says that no more input will come. -/
def step (ended : Bool) : Proc β ε α → List β → Option (Proc β ε α × List β × List β)
  | done _, _ => none
  | write bytes p, input => some (p, input, bytes)
  | read n p, input =>
    if n ≤ input.length then some (p (some (input.take n)), input.drop n, [])
    else if ended then some (p none, [], [])
    else none

theorem lift_ok_bind (a : α) (f : α → Proc β ε γ) : lift (.ok a) >>= f = f a := rfl

theorem bind_assoc {δ : Type} (p : Proc β ε α) (f : α → Proc β ε γ) (g : γ → Proc β ε δ) :
    p >>= f >>= g = p >>= fun a => f a >>= g := by
  show (p.bind f).bind g = p.bind fun a => (f a).bind g
  induction p with
  | done r => cases r <;> rfl
  | write bytes p ih => exact congrArg (write bytes) ih
  | read n p ih => exact congrArg (read n) (funext ih)

theorem runOn_writeAll_bind (bytes : List β) (f : Unit → Proc β ε α) (input : List β) :
    (writeAll bytes >>= f).runOn input = (f ()).runOn input := rfl

/-- A read that finds its bytes. -/
theorem runOn_readExact_bind (eof : ε) {n : Nat} {bytes : List β} (hn : bytes.length = n)
    (f : List β → Proc β ε α) (input : List β) :
    (readExact eof n >>= f).runOn (bytes ++ input) = (f bytes).runOn input := by
  have hlen : n ≤ (bytes ++ input).length := by
    rw [List.length_append]
    omega
  refine (if_pos hlen).trans ?_
  rw [← hn, List.take_left, List.drop_left]
  rfl

theorem step_readExact_bind (eof : ε) {n : Nat} {bytes : List β} (hn : bytes.length = n)
    (f : List β → Proc β ε α) (input : List β) (ended : Bool) :
    (readExact eof n >>= f).step ended (bytes ++ input) = some (f bytes, input, []) := by
  have hlen : n ≤ (bytes ++ input).length := by
    rw [List.length_append]
    omega
  refine (if_pos hlen).trans ?_
  rw [← hn, List.take_left, List.drop_left]
  rfl

/-- A move that needs no end of the stream stays the same when more input arrives, and when the
stream ends. -/
theorem step_append {p p' : Proc β ε α} {input rest sent : List β}
    (h : p.step false input = some (p', rest, sent)) (ended : Bool) (more : List β) : p.step ended (input ++ more) = some (p', rest ++ more, sent) := by
  cases p with
  | done r => simp [step] at h
  | write bytes p =>
    simp only [step, Option.some.injEq, Prod.mk.injEq] at h ⊢
    obtain ⟨rfl, rfl, rfl⟩ := h
    exact ⟨rfl, rfl, rfl⟩
  | read n p =>
    simp only [step] at h ⊢
    split at h
    · next hlen =>
      simp only [Option.some.injEq, Prod.mk.injEq] at h
      obtain ⟨rfl, rfl, rfl⟩ := h
      rw [if_pos (by rw [List.length_append]; omega), List.take_append_of_le_length hlen,
        List.drop_append_of_le_length hlen]
    · simp at h

theorem step_of_done {p : Proc β ε α} (h : p.result.isSome) (ended : Bool) (input : List β) :
    p.step ended input = none := by
  cases p with
  | done r => rfl
  | write _ _ => simp [result] at h
  | read _ _ => simp [result] at h

theorem live_of_step {p : Proc β ε α} {ended : Bool} {input : List β}
    {next : Proc β ε α × List β × List β} (h : p.step ended input = some next) :
    p.result.isSome = false := by
  cases p with
  | done r => simp [step] at h
  | write _ _ => rfl
  | read _ _ => rfl

end Proc

/-! ## Two parties -/

inductive Side where
  | left
  | right
deriving DecidableEq

/-- Two parties and what is on its way between them. -/
structure Duplex (β ε α ε' α' : Type) where
  left : Proc β ε α
  right : Proc β ε' α'
  toLeft : List β
  toRight : List β

namespace Duplex

/-- A move of one side, if it has one. -/
def step (s : Duplex β ε α ε' α') : Side → Option (Duplex β ε α ε' α')
  | .left => (s.left.step s.right.result.isSome s.toLeft).map fun (p, input, sent) =>
    { s with left := p, toLeft := input, toRight := s.toRight ++ sent }
  | .right => (s.right.step s.left.result.isSome s.toRight).map fun (p, input, sent) =>
    { s with right := p, toRight := input, toLeft := s.toLeft ++ sent }

/-- A scheduled side that has no move lets the turn pass. -/
def act (s : Duplex β ε α ε' α') (side : Side) : Duplex β ε α ε' α' := (s.step side).getD s

/-- The state after the first `n` turns of a schedule. -/
def runTo (sched : Nat → Side) (s : Duplex β ε α ε' α') : Nat → Duplex β ε α ε' α'
  | 0 => s
  | n + 1 => (runTo sched s n).act (sched n)

/-- Neither side is forgotten. -/
def Fair (sched : Nat → Side) : Prop := ∀ side n, ∃ m ≥ n, sched m = side

/-- Both parties are done. -/
def Ended (s : Duplex β ε α ε' α') : Prop := s.left.result.isSome ∧ s.right.result.isSome

variable {s t s₁ s₂ : Duplex β ε α ε' α'}

theorem step_of_ended (h : t.Ended) (side : Side) : t.step side = none := by
  cases side with
  | left => rw [step, Proc.step_of_done h.1, Option.map_none]
  | right => rw [step, Proc.step_of_done h.2, Option.map_none]

theorem step_left {p : Proc β ε α} {input sent : List β}
    (h : s.left.step s.right.result.isSome s.toLeft = some (p, input, sent)) :
    s.step .left = some { s with left := p, toLeft := input, toRight := s.toRight ++ sent } := by
  rw [step, h]
  rfl

theorem step_right {p : Proc β ε' α'} {input sent : List β}
    (h : s.right.step s.left.result.isSome s.toRight = some (p, input, sent)) :
    s.step .right = some { s with right := p, toRight := input, toLeft := s.toLeft ++ sent } := by
  rw [step, h]
  rfl

/-- Moves of the two sides commute. -/
theorem diamond (h₁ : s.step .left = some s₁) (h₂ : s.step .right = some s₂) :
    ∃ t, s₁.step .right = some t ∧ s₂.step .left = some t := by
  obtain ⟨⟨p, input, sent⟩, hleft, rfl⟩ := Option.map_eq_some_iff.mp h₁
  obtain ⟨⟨q, input', sent'⟩, hright, rfl⟩ := Option.map_eq_some_iff.mp h₂
  -- a side that still moves is not done, so the other one does not move on the end of the stream
  rw [Proc.live_of_step hright] at hleft
  rw [Proc.live_of_step hleft] at hright
  exact ⟨_, step_right (Proc.step_append hright _ sent), step_left (Proc.step_append hleft _ sent')⟩

/-! ## Runs -/

/-- From one state to another in `n` moves. -/
inductive Path : Nat → Duplex β ε α ε' α' → Duplex β ε α ε' α' → Prop
  | refl (s : Duplex β ε α ε' α') : Path 0 s s
  | move {n : Nat} {s s' t : Duplex β ε α ε' α'} (side : Side) (first : s.step side = some s')
    (rest : Path n s' t) : Path (n + 1) s t

/-- One state comes before another one in some order of moves. -/
def Leads (s t : Duplex β ε α ε' α') : Prop := ∃ n, Path n s t

theorem Leads.refl (s : Duplex β ε α ε' α') : Leads s s := ⟨0, .refl s⟩

theorem Leads.trans (h : Leads s t) (h' : Leads t s₁) : Leads s s₁ := by
  obtain ⟨n, hn⟩ := h
  induction hn with
  | refl _ => exact h'
  | move side first _ ih =>
    obtain ⟨m, hm⟩ := ih h'
    exact ⟨m + 1, .move side first hm⟩

theorem Leads.of_step (side : Side) (h : s.step side = some t) : Leads s t :=
  ⟨1, .move side h (.refl t)⟩

/-- The same two parties, seen from the other end. -/
def swap (s : Duplex β ε α ε' α') : Duplex β ε' α' ε α := ⟨s.right, s.left, s.toRight, s.toLeft⟩

theorem step_swap {side : Side} (h : s.step side = some t) : ∃ side', s.swap.step side' = some t.swap := by
  cases side with
  | left =>
    obtain ⟨next, hnext, rfl⟩ := Option.map_eq_some_iff.mp h
    exact ⟨.right, step_right hnext⟩
  | right =>
    obtain ⟨next, hnext, rfl⟩ := Option.map_eq_some_iff.mp h
    exact ⟨.left, step_left hnext⟩

theorem Leads.swap (h : Leads s t) : Leads s.swap t.swap := by
  obtain ⟨n, hn⟩ := h
  induction hn with
  | refl s => exact .refl s.swap
  | move side first _ ih =>
    obtain ⟨side', hfirst⟩ := step_swap first
    exact (Leads.of_step side' hfirst).trans ih

section Moves

variable {p : Proc β ε α} {q : Proc β ε' α'} (toLeft toRight : List β)

theorem leads_writeAll_left (bytes : List β) (f : Unit → Proc β ε α) :
    Leads ⟨Proc.writeAll bytes >>= f, q, toLeft, toRight⟩ ⟨f (), q, toLeft, toRight ++ bytes⟩ :=
  .of_step .left rfl

theorem leads_writeAll_right (bytes : List β) (f : Unit → Proc β ε' α') :
    Leads ⟨p, Proc.writeAll bytes >>= f, toLeft, toRight⟩ ⟨p, f (), toLeft ++ bytes, toRight⟩ :=
  (leads_writeAll_left toRight toLeft bytes f).swap

/-- The last thing the right side does. -/
theorem leads_writeAll_right_done (bytes : List β) :
    Leads ⟨p, (Proc.writeAll bytes : Proc β ε' Unit), toLeft, toRight⟩
      ⟨p, .done (.ok ()), toLeft ++ bytes, toRight⟩ :=
  .of_step .right rfl

theorem leads_readExact_left (eof : ε) {n : Nat} {bytes : List β} (hn : bytes.length = n)
    (f : List β → Proc β ε α) :
    Leads ⟨Proc.readExact eof n >>= f, q, bytes ++ toLeft, toRight⟩ ⟨f bytes, q, toLeft, toRight⟩ := by
  refine .of_step .left ((step_left (Proc.step_readExact_bind eof hn f toLeft _)).trans ?_)
  rw [List.append_nil]

end Moves

/-- Whatever move is made first, an end that can be reached is still reached, one move sooner. -/
theorem Path.after {n : Nat} (h : Path n s t) (hended : t.Ended) {side : Side}
    (hstep : s.step side = some s₁) : ∃ m, n = m + 1 ∧ Path m s₁ t := by
  induction h generalizing s₁ side with
  | refl s => exact absurd hstep (by rw [step_of_ended hended]; simp)
  | @move n s s' t side' first rest ih =>
    refine ⟨n, rfl, ?_⟩
    by_cases hside : side = side'
    · obtain rfl : s₁ = s' := by
        subst hside
        exact Option.some.inj (hstep.symm.trans first)
      exact rest
    · -- the other side went first: close the square and follow the path from there
      obtain ⟨u, hu₁, hu₂⟩ : ∃ u, s₁.step side' = some u ∧ s'.step side = some u := by
        cases side <;> cases side'
        · exact absurd rfl hside
        · exact diamond hstep first
        · obtain ⟨u, hu, hu'⟩ := diamond first hstep
          exact ⟨u, hu', hu⟩
        · exact absurd rfl hside
      obtain ⟨m, rfl, hm⟩ := ih hended hu₂
      exact .move side' hu₁ hm

/-- A turn of the scheduler is a move towards the end, or changes nothing. -/
theorem Path.act {n : Nat} (h : Path n s t) (hended : t.Ended) (side : Side) :
    s.act side = s ∨ ∃ m < n, Path m (s.act side) t := by
  cases hstep : s.step side with
  | none => exact Or.inl (by rw [Duplex.act, hstep, Option.getD_none])
  | some s₁ =>
    obtain ⟨m, rfl, hm⟩ := h.after hended hstep
    refine Or.inr ⟨m, Nat.lt_succ_self m, ?_⟩
    rw [Duplex.act, hstep, Option.getD_some]
    exact hm

/-- **One order is every order.** If the two parties can come to an end together, every
fair schedule brings them there, and they stay. -/
theorem eventually {n : Nat} (h : Path n s t) (hended : t.Ended) {sched : Nat → Side}
    (hfair : Fair sched) : ∃ k, ∀ m ≥ k, runTo sched s m = t := by
  -- some turn reaches the end: by the number of moves still to go
  have hreach : ∀ n k, Path n (runTo sched s k) t → ∃ m, runTo sched s m = t := by
    intro n
    induction n using Nat.strongRecOn with
    | _ n ih =>
      intro k hpath
      cases hpath with
      | refl _ => exact ⟨k, rfl⟩
      | @move n _ s' _ side first rest =>
        have hpath : Path (n + 1) (runTo sched s k) t := .move side first rest
        obtain ⟨m, hm, hsched⟩ := hfair side k
        -- until that side has its turn, nothing happens or the end comes closer
        have hwait : ∀ j, runTo sched s (k + j) = runTo sched s k ∨
            ∃ l < n + 1, ∃ i, Path l (runTo sched s i) t := by
          intro j
          induction j with
          | zero => exact Or.inl rfl
          | succ j ihj =>
            rcases ihj with hsame | hcloser
            · rcases (hsame ▸ hpath).act hended (sched (k + j)) with hstay | ⟨l, hl, hpath'⟩
              · exact Or.inl (hstay.trans hsame)
              · exact Or.inr ⟨l, hl, k + j + 1, hpath'⟩
            · exact Or.inr hcloser
        rcases hwait (m - k) with hsame | ⟨l, hl, i, hpath'⟩
        · rw [Nat.add_sub_cancel' hm] at hsame
          have hnext : runTo sched s (m + 1) = s' := by
            rw [runTo, hsame, hsched, Duplex.act, first, Option.getD_some]
          exact ih n (Nat.lt_succ_self n) (m + 1) (hnext ▸ rest)
        · exact ih l hl i hpath'
  obtain ⟨k, hk⟩ := hreach n 0 h
  refine ⟨k, fun m hm => ?_⟩
  induction m, hm using Nat.le_induction with
  | base => exact hk
  | succ m _ ih => rw [runTo, ih, Duplex.act, step_of_ended hended, Option.getD_none]

end Duplex

end AethelDB.Lib
