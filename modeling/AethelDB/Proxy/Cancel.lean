import AethelDB.Proxy.Protocol

/-!
# Cancellation keys

`proxy/src/cancel.rs`: the registry of live sessions' cancellation keys, and the scanner that finds
a session's key in what its backend sends. The scanner frames the typed messages of the stream (a
type byte and a length that counts itself) and stops at the first `BackendKeyData`, at
`ReadyForQuery`, or when it cannot go on.

The loop of `push` is `scan`; a round drops at least five bytes of its buffer, so with the length
of the buffer as its fuel it never runs out (`scan_eq_of_le`).
-/

namespace AethelDB.Proxy

/-- A backend's cancellation key: process id and secret. -/
abbrev CancelKey := Int32 × Int32

/-- Maps live sessions' cancellation keys to the backend that owns them. -/
structure CancelRegistry where
  map : CancelKey → Option String

namespace CancelRegistry

def new : CancelRegistry := ⟨fun _ => none⟩

def insert (r : CancelRegistry) (key : CancelKey) (backend : String) : CancelRegistry :=
  ⟨Function.update r.map key (some backend)⟩

def remove (r : CancelRegistry) (key : CancelKey) : CancelRegistry :=
  ⟨Function.update r.map key none⟩

def lookup (r : CancelRegistry) (key : CancelKey) : Option String := r.map key

end CancelRegistry

def MSG_BACKEND_KEY_DATA : UInt8 := 75

def MSG_READY_FOR_QUERY : UInt8 := 90

def BACKEND_KEY_DATA_LEN : Nat := 12

def SCAN_CAP : Nat := 16 * 1024

/-- Where the loop of `push` ends. -/
inductive Scan where
  | found (key : CancelKey)
  | stop
  /-- The message at the front of the buffer is not complete. -/
  | wait (buf : List UInt8)
deriving DecidableEq

/-- The loop of `push`, on the part of the buffer that is not yet framed. -/
def scan : Nat → List UInt8 → Scan
  | 0, buf => .wait buf
  | fuel + 1, buf =>
    if 5 ≤ buf.length then
      let typ := buf.headD 0
      let len := i32FromBe ((buf.drop 1).take 4)
      if len < 4 then .stop
      else
        let len := len.toNatClampNeg
        if buf.length - 1 < len then .wait buf
        else if typ = MSG_BACKEND_KEY_DATA ∧ len = BACKEND_KEY_DATA_LEN then
          .found (i32FromBe ((buf.drop 5).take 4), i32FromBe ((buf.drop 9).take 4))
        else if typ = MSG_READY_FOR_QUERY then .stop
        else scan fuel (buf.drop (1 + len))
    else .wait buf

theorem scan_nil (fuel : Nat) : scan fuel [] = .wait [] := by cases fuel <;> rfl

/-- The loop ends by itself. -/
theorem scan_eq_of_le {fuel fuel' : Nat} {buf : List UInt8} (h : buf.length ≤ fuel)
    (h' : buf.length ≤ fuel') : scan fuel buf = scan fuel' buf := by
  induction fuel generalizing fuel' buf with
  | zero =>
    rw [List.length_eq_zero_iff.mp (Nat.le_zero.mp h), scan_nil, scan_nil]
  | succ fuel ih =>
    cases fuel' with
    | zero => rw [List.length_eq_zero_iff.mp (Nat.le_zero.mp h'), scan_nil, scan_nil]
    | succ fuel' =>
      have hrest : ∀ len, scan fuel (buf.drop (1 + len)) = scan fuel' (buf.drop (1 + len)) := by
        intro len
        have hlen : (buf.drop (1 + len)).length = buf.length - (1 + len) := List.length_drop
        exact ih (by omega) (by omega)
      simp only [scan, hrest]

structure KeyScanner where
  buf : List UInt8
  done : Bool
deriving DecidableEq

namespace KeyScanner

def new : KeyScanner := ⟨[], false⟩

/-- Feed the next chunk, and the key if it is complete now. -/
def push (s : KeyScanner) (bytes : List UInt8) : KeyScanner × Option CancelKey :=
  if s.done then (s, none)
  else
    let buf := s.buf ++ bytes
    match scan buf.length buf with
    | .found key => (⟨buf, true⟩, some key)
    | .stop => (⟨buf, true⟩, none)
    | .wait rest => (⟨rest, SCAN_CAP < rest.length⟩, none)

theorem done_of_push {s : KeyScanner} {bytes : List UInt8} {key : CancelKey}
    (h : (s.push bytes).2 = some key) : s.done = false ∧ (s.push bytes).1.done = true := by
  cases hdone : s.done with
  | true => simp [push, hdone] at h
  | false =>
    refine ⟨rfl, ?_⟩
    cases hscan : scan (s.buf ++ bytes).length (s.buf ++ bytes) with
    | found key' => simp only [push, hdone, hscan, Bool.false_eq_true, if_false]
    | stop => simp only [push, hdone, hscan, Bool.false_eq_true, if_false, reduceCtorEq] at h
    | wait rest => simp only [push, hdone, hscan, Bool.false_eq_true, if_false, reduceCtorEq] at h

end KeyScanner

end AethelDB.Proxy
