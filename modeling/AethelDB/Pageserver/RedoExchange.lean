import AethelDB.Lib.Run
import AethelDB.Pageserver.WalredoProto

/-!
# Redo requests through a process that may die

`PostgresRedoManager::redo_page`, `spawn` and `exchange` of `pageserver/src/walredo_process.rs`. One
child is kept between calls. A call writes its request and reads one response; on a failure of the
pipe the child is dropped and the call tries once more with a new one, while an error response
leaves the child in place.

A child is what it answers to each request, which may depend on the requests it had before. It
answers the requests that its input contains in full, one after the other (`output`). What fails is
up to the environment (`Attempt`): whether a child can be spawned, after how many bytes a write
breaks off, and how many of the bytes the child has answered arrive before the pipe ends. A child
that dies is one whose pipes break off from some point on.

Between calls the child that is kept has been sent whole requests only, and all that it answered
has been read (`Settled`). That is what keeps the answers apart, since nothing in a response says
which request it belongs to.
-/

namespace AethelDB.Pageserver

open AethelDB.Lib AethelDB.Text AethelDB.Pageserver.WalredoProto

/-- What a child writes in answer to a request: a page, or a message in whatever encoding. -/
inductive RedoAnswer where
  | page (bytes : List UInt8) (h : bytes.length = PAGE_SIZE)
  | error (msg : List UInt8) (h : msg.length < 2 ^ 32)

namespace RedoAnswer

def encode : RedoAnswer → List UInt8
  | .page bytes _ => replyHeader STATUS_OK ++ bytes
  | .error msg _ => replyHeader STATUS_ERR ++ (toBeBytes 4 msg.length ++ msg)

/-- The response the page server makes of it. -/
def response : RedoAnswer → RedoResponse
  | .page bytes _ => .page bytes
  | .error msg _ => .error (String.ofList (fromUtf8Lossy msg))

/-- What the call returns for it. -/
def result : RedoAnswer → Except RedoError (List UInt8)
  | .page bytes _ => .ok bytes
  | .error msg _ => .error (.redoFailed (String.ofList (fromUtf8Lossy msg)))

theorem takes_encode (a : RedoAnswer) : Takes readReply a.encode a.response := by
  cases a with
  | page bytes h => exact takes_readReply_page h
  | error msg h => exact takes_readReply_error h

end RedoAnswer

/-- A wal-redo child: its answer to a request after the requests it has had. -/
structure RedoPeer where
  answer : List RedoRequest → RedoRequest → RedoAnswer

/-- The requests that the input of a child contains in full. -/
def requestsIn : Nat → List UInt8 → List RedoRequest
  | 0, _ => []
  | fuel + 1, input =>
    match RedoRequest.read input with
    | .ok (req, rest) => req :: requestsIn fuel rest
    | .error _ => []

namespace RedoPeer

/-- The answers to requests in order, after some others. -/
def answers (c : RedoPeer) : List RedoRequest → List RedoRequest → List RedoAnswer
  | _, [] => []
  | served, req :: reqs => c.answer served req :: c.answers (served ++ [req]) reqs

/-- What the child has written once it has been sent `received`. No request is empty, so there are
no more requests than bytes. -/
def output (c : RedoPeer) (received : List UInt8) : List UInt8 :=
  (c.answers [] (requestsIn received.length received)).flatMap RedoAnswer.encode

end RedoPeer

/-- A running child and its pipes: what was written to it, and how much of its output was read. -/
structure RedoProc where
  child : RedoPeer
  received : List UInt8
  taken : Nat

/-- How the pipes of a child behave during one exchange. -/
structure Pipe where
  /-- The write fails after some bytes, with an error text. -/
  write : Option (Nat × String)
  flush : Option String
  /-- How many bytes of the child's output arrive. -/
  deliver : Nat

/-- What an attempt meets: the child `spawn` would give or its error text, and the pipes. -/
structure Attempt where
  spawn : Except String RedoPeer
  pipe : Pipe

/-- What an exchange had from the child. -/
structure Exchange where
  child : RedoPeer
  /-- The requests the child had been sent before. -/
  served : List RedoRequest
  /-- How much of the child's output had been read before. -/
  start : Nat
  /-- What there was to read of it now. -/
  got : List UInt8

/-- `exchange`: write one request and read one response. -/
def exchange (p : RedoProc) (req : RedoRequest) (pipe : Pipe) :
    RedoProc × Exchange × Except RedoError (List UInt8) :=
  let x : Exchange := ⟨p.child, requestsIn p.received.length p.received, p.taken, []⟩
  let bytes := req.encode
  match pipe.write with
  | some (n, e) =>
    ({ p with received := p.received ++ bytes.take n }, x, .error (.process ("write request: " ++ e)))
  | none =>
    let p := { p with received := p.received ++ bytes }
    match pipe.flush with
    | some e => (p, x, .error (.process ("flush request: " ++ e)))
    | none =>
      let stdout := ((p.child.output p.received).drop p.taken).take pipe.deliver
      let x := { x with got := stdout }
      match readReply stdout with
      | .ok (reply, rest) =>
        let p := { p with taken := p.taken + (stdout.length - rest.length) }
        match reply with
        | .page page => (p, x, .ok page)
        | .error msg => (p, x, .error (.redoFailed msg))
      | .error e => (p, x, .error e)

/-- One turn of the loop of `redo_page`. -/
inductive Verdict where
  /-- The call returns. -/
  | returned (result : Except RedoError (List UInt8))
  /-- The child is dropped. -/
  | dropped (e : RedoError)

/-- What a turn or a call leaves behind; `spawns` counts the calls of `spawn`. -/
structure Trace (α : Type) where
  guard : Option RedoProc
  spawns : Nat
  exchanges : List Exchange
  result : α

/-- A turn with a child in place. -/
def exchangeTurn (p : RedoProc) (spawns : Nat) (req : RedoRequest) (pipe : Pipe) : Trace Verdict :=
  match exchange p req pipe with
  | (p, x, .ok page) => ⟨some p, spawns, [x], .returned (.ok page)⟩
  | (p, x, .error (.redoFailed m)) => ⟨some p, spawns, [x], .returned (.error (.redoFailed m))⟩
  | (_, x, .error e) => ⟨none, spawns, [x], .dropped e⟩

def turn (guard : Option RedoProc) (req : RedoRequest) (a : Attempt) : Trace Verdict :=
  match guard with
  | some p => exchangeTurn p 0 req a.pipe
  | none =>
    match a.spawn with
    | .ok child => exchangeTurn ⟨child, [], 0⟩ 1 req a.pipe
    -- `?` leaves the function
    | .error e => ⟨none, 1, [], .returned (.error (.process e))⟩

/-- A call of `redo_page` and what its two attempts meet. -/
structure RedoCall where
  req : RedoRequest
  first : Attempt
  second : Attempt

namespace RedoCall

def redoPage (call : RedoCall) (guard : Option RedoProc) : Trace (Except RedoError (List UInt8)) :=
  let t := turn guard call.req call.first
  match t.result with
  | .returned r => { t with result := r }
  | .dropped _ =>
    let t' := turn t.guard call.req call.second
    let result := match t'.result with
      | .returned r => r
      | .dropped e => .error e
    ⟨t'.guard, t.spawns + t'.spawns, t.exchanges ++ t'.exchanges, result⟩

/-- The child kept after a call. -/
def step (guard : Option RedoProc) (call : RedoCall) : Option RedoProc := (call.redoPage guard).guard

end RedoCall

/-! ## The requests a child has -/

variable {reqs : List RedoRequest}

theorem encode_ne_nil (req : RedoRequest) : req.encode ≠ [] := by
  intro h
  have hlen := congrArg List.length h
  simp only [RedoRequest.encode, List.length_append, req.length_header, List.length_nil] at hlen
  omega

/-- Whole requests are found again, whatever bound there is on their number. -/
theorem requestsIn_encode (hfits : ∀ r ∈ reqs, r.Fits) {fuel : Nat} (hfuel : reqs.length ≤ fuel) :
    requestsIn fuel (reqs.flatMap RedoRequest.encode) = reqs := by
  induction reqs generalizing fuel with
  | nil => cases fuel <;> rfl
  | cons r reqs ih =>
    obtain ⟨fuel, rfl⟩ : ∃ n, fuel = n + 1 := ⟨fuel - 1, by simp at hfuel; omega⟩
    have hread := RedoRequest.takes_read (hfits r List.mem_cons_self) (reqs.flatMap RedoRequest.encode)
    rw [List.flatMap_cons, requestsIn, hread]
    simp only
    rw [ih (fun r hr => hfits r (List.mem_cons_of_mem _ hr)) (Nat.le_of_succ_le_succ hfuel)]

theorem length_le_flatMap_encode (reqs : List RedoRequest) :
    reqs.length ≤ (reqs.flatMap RedoRequest.encode).length := by
  induction reqs with
  | nil => exact Nat.le_refl 0
  | cons r reqs ih =>
    have hpos := List.length_pos_iff.mpr (encode_ne_nil r)
    rw [List.flatMap_cons, List.length_append, List.length_cons]
    omega

theorem requestsIn_self (hfits : ∀ r ∈ reqs, r.Fits) :
    requestsIn (reqs.flatMap RedoRequest.encode).length (reqs.flatMap RedoRequest.encode) = reqs :=
  requestsIn_encode hfits (length_le_flatMap_encode reqs)

theorem RedoPeer.answers_concat (c : RedoPeer) (served reqs : List RedoRequest) (req : RedoRequest) :
    c.answers served (reqs ++ [req]) = c.answers served reqs ++ [c.answer (served ++ reqs) req] := by
  induction reqs generalizing served with
  | nil => simp [answers]
  | cons r reqs ih => simp [answers, ih]

theorem RedoPeer.output_concat (c : RedoPeer) {req : RedoRequest}
    (hfits : ∀ r ∈ reqs ++ [req], r.Fits) :
    c.output ((reqs ++ [req]).flatMap RedoRequest.encode)
      = c.output (reqs.flatMap RedoRequest.encode) ++ (c.answer reqs req).encode := by
  have hbefore : ∀ r ∈ reqs, r.Fits := fun r hr => hfits r (List.mem_append_left _ hr)
  rw [output, output, requestsIn_self hfits, requestsIn_self hbefore, answers_concat,
    List.flatMap_append, List.flatMap_singleton, List.nil_append]

/-! ## One exchange -/

/-- The child has been sent these requests and nothing else, and its answers have all been read. -/
structure RedoProc.Settled (p : RedoProc) (reqs : List RedoRequest) : Prop where
  received : p.received = reqs.flatMap RedoRequest.encode
  taken : p.taken = (p.child.output p.received).length

/-- The exchange came upon the answer to `req` and had nothing but that to read. -/
structure Exchange.Own (x : Exchange) (req : RedoRequest) : Prop where
  start : x.start = ((x.child.answers [] x.served).flatMap RedoAnswer.encode).length
  got : x.got <+: (x.child.answer x.served req).encode

section Exchange

variable {p : RedoProc} {reqs : List RedoRequest} {req : RedoRequest}

/-- What the child writes after a whole request is the answer to it. -/
theorem RedoProc.Settled.unread (h : p.Settled reqs) (hfits : ∀ r ∈ reqs ++ [req], r.Fits) :
    (p.child.output (p.received ++ req.encode)).drop p.taken = (p.child.answer reqs req).encode := by
  have hsplit : p.received ++ req.encode = (reqs ++ [req]).flatMap RedoRequest.encode := by
    rw [h.received, List.flatMap_append, List.flatMap_singleton]
  rw [hsplit, p.child.output_concat hfits, h.taken, h.received, List.drop_left]

/-- **One exchange.** It has its own answer to read, or the beginning of it. Either it returns that
answer and leaves the child settled, or it fails as a matter of the pipe. -/
theorem exchange_cases (h : p.Settled reqs) (hfits : ∀ r ∈ reqs ++ [req], r.Fits) (pipe : Pipe) :
    ∃ p' x result, exchange p req pipe = (p', x, result) ∧ x.Own req
      ∧ ((p'.Settled (reqs ++ [req]) ∧ p'.child = p.child
          ∧ result = (p.child.answer reqs req).result)
        ∨ ∃ text, result = .error (.process text)) := by
  have hbefore : ∀ r ∈ reqs, r.Fits := fun r hr => hfits r (List.mem_append_left _ hr)
  have hserved : requestsIn p.received.length p.received = reqs := by
    rw [h.received]
    exact requestsIn_self hbefore
  have hstart : p.taken = ((p.child.answers [] reqs).flatMap RedoAnswer.encode).length := by
    rw [h.taken, RedoPeer.output, hserved]
  have hown : ∀ got, got <+: (p.child.answer reqs req).encode →
      (⟨p.child, reqs, p.taken, got⟩ : Exchange).Own req := fun got hgot => ⟨hstart, hgot⟩
  obtain ⟨answer, hanswer⟩ : ∃ a, a = p.child.answer reqs req := ⟨_, rfl⟩
  have hunread := h.unread hfits
  rw [← hanswer] at hown hunread ⊢
  unfold exchange
  simp only [hserved]
  cases hwrite : pipe.write with
  | some failure => exact ⟨_, _, _, rfl, hown [] (List.nil_prefix), .inr ⟨_, rfl⟩⟩
  | none =>
    cases hflush : pipe.flush with
    | some e => exact ⟨_, _, _, rfl, hown [] (List.nil_prefix), .inr ⟨_, rfl⟩⟩
    | none =>
      simp only [hunread]
      have hgot := hown (answer.encode.take pipe.deliver) (List.take_prefix _ _)
      by_cases hall : answer.encode.length ≤ pipe.deliver
      · -- the whole answer arrives
        have hread := answer.takes_encode []
        rw [List.append_nil] at hread
        rw [List.take_of_length_le hall] at hgot ⊢
        rw [hread]
        have hsettled : (⟨p.child, p.received ++ req.encode,
            p.taken + (answer.encode.length - 0)⟩ : RedoProc).Settled (reqs ++ [req]) := by
          have hsplit : p.received ++ req.encode = (reqs ++ [req]).flatMap RedoRequest.encode := by
            rw [h.received, List.flatMap_append, List.flatMap_singleton]
          refine ⟨hsplit, ?_⟩
          rw [hsplit, p.child.output_concat hfits, List.length_append, h.taken, h.received, ← hanswer]
          rfl
        cases answer with
        | page bytes hbytes => exact ⟨_, _, _, rfl, hgot, .inl ⟨hsettled, rfl, rfl⟩⟩
        | error msg hmsg => exact ⟨_, _, _, rfl, hgot, .inl ⟨hsettled, rfl, rfl⟩⟩
      · -- it is cut short
        have htake := answer.takes_encode
        rw [← List.take_append_drop pipe.deliver answer.encode] at htake
        have hmore : answer.encode.drop pipe.deliver ≠ [] := by
          intro hnil
          have hlen := congrArg List.length hnil
          rw [List.length_drop, List.length_nil] at hlen
          omega
        obtain ⟨e, he⟩ := htake.error_of_prefix steady_readReply hmore
        obtain ⟨text, rfl⟩ := fails_readReply _ _ he
        rw [he]
        exact ⟨_, _, _, rfl, hgot, .inr ⟨text, rfl⟩⟩

end Exchange

/-! ## Calls -/

/-- The child kept after some calls is settled, and the last of them are what it has been sent. -/
def KeptSettled (calls : List RedoCall) (guard : Option RedoProc) : Prop :=
  ∀ p ∈ guard, ∃ earlier since, calls = earlier ++ since ∧ p.Settled (since.map RedoCall.req)

/-- The call was answered: its result is the answer of the child that is kept, which was sent the
requests of the calls since it was spawned, this one last. -/
def Answered (calls : List RedoCall) (call : RedoCall) (guard : Option RedoProc)
    (result : Except RedoError (List UInt8)) : Prop :=
  ∃ p earlier since, guard = some p ∧ calls = earlier ++ since
    ∧ p.Settled ((since ++ [call]).map RedoCall.req)
    ∧ result = (p.child.answer (since.map RedoCall.req) call.req).result

/-- What a turn can come to. -/
structure TurnOk (calls : List RedoCall) (call : RedoCall) (t : Trace Verdict) : Prop where
  spawns : t.spawns ≤ 1
  own : ∀ x ∈ t.exchanges, x.Own call.req
  verdict : match t.result with
    | .returned r => Answered calls call t.guard r ∨ t.guard = none ∧ ∃ text, r = .error (.process text)
    | .dropped e => t.guard = none ∧ ∃ text, e = .process text

section Calls

variable {calls : List RedoCall} {call : RedoCall}

theorem exchangeTurn_ok {p : RedoProc} {n : Nat} {earlier since : List RedoCall} (hn : n ≤ 1)
    (hsplit : calls = earlier ++ since) (h : p.Settled (since.map RedoCall.req))
    (hfits : ∀ c ∈ calls ++ [call], c.req.Fits) (pipe : Pipe) :
    TurnOk calls call (exchangeTurn p n call.req pipe) := by
  have hreqs : ∀ r ∈ since.map RedoCall.req ++ [call.req], r.Fits := by
    intro r hr
    have hmem : r ∈ (since ++ [call]).map RedoCall.req := by rwa [List.map_append]
    obtain ⟨c, hc, rfl⟩ := List.mem_map.mp hmem
    exact hfits c (by rw [hsplit, List.append_assoc]; exact List.mem_append_right _ hc)
  obtain ⟨p', x, result, heq, hown, hresult⟩ := exchange_cases h hreqs pipe
  have hexchanges : ∀ y ∈ [x], y.Own call.req := fun y hy => List.mem_singleton.mp hy ▸ hown
  unfold exchangeTurn
  rw [heq]
  rcases hresult with ⟨hsettled, hchild, hres⟩ | ⟨text, rfl⟩
  · have hanswered : Answered calls call (some p') result :=
      ⟨p', earlier, since, rfl, hsplit, by rwa [List.map_append], by rw [hchild, hres]⟩
    cases hanswer : p.child.answer (since.map RedoCall.req) call.req with
    | page bytes hbytes =>
      rw [hanswer] at hres
      subst hres
      exact ⟨hn, hexchanges, .inl hanswered⟩
    | error msg hmsg =>
      rw [hanswer] at hres
      subst hres
      exact ⟨hn, hexchanges, .inl hanswered⟩
  · exact ⟨hn, hexchanges, rfl, text, rfl⟩

theorem turn_ok {guard : Option RedoProc} (h : KeptSettled calls guard)
    (hfits : ∀ c ∈ calls ++ [call], c.req.Fits) (a : Attempt) :
    TurnOk calls call (turn guard call.req a) := by
  cases guard with
  | some p =>
    obtain ⟨earlier, since, hsplit, hsettled⟩ := h p rfl
    exact exchangeTurn_ok (Nat.zero_le 1) hsplit hsettled hfits a.pipe
  | none =>
    unfold turn
    cases a.spawn with
    | ok child =>
      -- a new child has been sent nothing and has nothing to be read
      exact exchangeTurn_ok (Nat.le_refl 1) (List.append_nil calls).symm ⟨rfl, rfl⟩ hfits a.pipe
    | error e => exact ⟨Nat.le_refl 1, fun x hx => absurd hx (by simp), .inr ⟨rfl, e, rfl⟩⟩

/-- **One call.** -/
theorem redoPage_ok {guard : Option RedoProc} (h : KeptSettled calls guard)
    (hfits : ∀ c ∈ calls ++ [call], c.req.Fits) :
    (call.redoPage guard).spawns ≤ 2
      ∧ (∀ x ∈ (call.redoPage guard).exchanges, x.Own call.req)
      ∧ (Answered calls call (call.redoPage guard).guard (call.redoPage guard).result
        ∨ (call.redoPage guard).guard = none
          ∧ ∃ text, (call.redoPage guard).result = .error (.process text)) := by
  have hfirst := turn_ok h hfits call.first
  obtain ⟨t, ht⟩ : ∃ t, t = turn guard call.req call.first := ⟨_, rfl⟩
  unfold RedoCall.redoPage
  rw [← ht] at hfirst ⊢
  obtain ⟨guard', spawns, exchanges, result⟩ := t
  obtain ⟨hspawns, hown, hverdict⟩ := hfirst
  cases result with
  | returned r => exact ⟨Nat.le_succ_of_le hspawns, hown, hverdict⟩
  | dropped e =>
    obtain ⟨hnone, -⟩ := hverdict
    dsimp only at hnone
    subst hnone
    have hfresh : KeptSettled calls none := fun p hp => absurd hp (by simp)
    have hsecond := turn_ok hfresh hfits call.second
    obtain ⟨t', ht'⟩ : ∃ t', t' = turn none call.req call.second := ⟨_, rfl⟩
    dsimp only
    rw [← ht'] at hsecond ⊢
    obtain ⟨guard', spawns', exchanges', result'⟩ := t'
    obtain ⟨hspawns', hown', hverdict'⟩ := hsecond
    refine ⟨Nat.add_le_add hspawns hspawns', ?_, ?_⟩
    · intro x hx
      exact (List.mem_append.mp hx).elim (hown x) (hown' x)
    · cases result' with
      | returned r => exact hverdict'
      | dropped e =>
        obtain ⟨hnone, text, rfl⟩ := hverdict'
        exact .inr ⟨hnone, text, rfl⟩

/-- Every run of calls keeps a settled child, if any. -/
theorem keptSettled_run (hfits : ∀ c ∈ calls, c.req.Fits) :
    KeptSettled calls (run RedoCall.step none calls) := by
  induction calls using List.reverseRecOn with
  | nil => exact fun p hp => absurd hp (by simp)
  | append_singleton calls call ih =>
    have hbefore := ih fun c hc => hfits c (List.mem_append_left _ hc)
    rw [run_concat]
    intro p hp
    obtain ⟨-, -, hcase⟩ := redoPage_ok hbefore hfits
    rcases hcase with ⟨p', earlier, since, hguard, hsplit, hsettled, -⟩ | ⟨hnone, -⟩
    · obtain rfl : p' = p := Option.some.inj (hguard.symm.trans hp)
      exact ⟨earlier, since ++ [call], by rw [hsplit, List.append_assoc], hsettled⟩
    · exact absurd (hnone.symm.trans hp) (by simp)

end Calls

/-- **Answers are not mixed up.** After any calls with any failures: a call that returns a page
returns the answer to its own request of the child that is kept then, which had been sent exactly
the requests of the calls since it was spawned; a `redoFailed` is the error answer in the same way.
A call spawns at most twice. Whatever an exchange reads, also one that fails, is the beginning of
the answer to its own request, and it starts where the answers to all earlier requests end. -/
theorem redo_answers_match (calls : List RedoCall) (call : RedoCall)
    (hfits : ∀ c ∈ calls ++ [call], c.req.Fits) :
    let after := call.redoPage (run RedoCall.step none calls)
    (∀ page, after.result = .ok page → Answered calls call after.guard (.ok page))
    ∧ (∀ m, after.result = .error (.redoFailed m) →
      Answered calls call after.guard (.error (.redoFailed m)))
    ∧ after.spawns ≤ 2
    ∧ ∀ x ∈ after.exchanges, x.Own call.req := by
  have hkept := keptSettled_run fun c hc => hfits c (List.mem_append_left _ hc)
  obtain ⟨hspawns, hown, hcase⟩ := redoPage_ok hkept hfits
  refine ⟨fun page hpage => ?_, fun m hm => ?_, hspawns, hown⟩
  · rcases hcase with hanswered | ⟨-, text, htext⟩
    · rwa [hpage] at hanswered
    · exact absurd (hpage.symm.trans htext) (by simp)
  · rcases hcase with hanswered | ⟨-, text, htext⟩
    · rwa [hm] at hanswered
    · exact absurd (hm.symm.trans htext) (by simp)

/-- A child that answers with zero pages, and whose pipe breaks off after three bytes of the first
answer. -/
def cutShort : RedoCall where
  req := ⟨⟨1663, 5, 16384, .main⟩, 1, none, [(⟨10⟩, [0, 4, 0, 1, 7])]⟩
  first := ⟨.ok ⟨fun _ _ => .page (List.replicate PAGE_SIZE 0) (by simp)⟩, none, none, 3⟩
  second := ⟨.error "no such file", none, none, 0⟩

theorem redo_answers_match_cutShort :
    (cutShort.redoPage (run RedoCall.step none [cutShort])).spawns ≤ 2 := by
  have hfits : ∀ c ∈ [cutShort] ++ [cutShort], c.req.Fits := by
    intro c hc
    obtain rfl : c = cutShort := by simpa using hc
    exact ⟨by simp [cutShort], by simp [cutShort], by simp [cutShort]⟩
  exact (redo_answers_match [cutShort] cutShort hfits).2.2.1

end AethelDB.Pageserver
