import Mathlib

/-!
# The shared vocabulary: LSNs, identifiers and page addresses

`common/src/{lsn,ids,page}.rs` define what every service of the system
talks about. An `Lsn` is a 64-bit position in the WAL stream; tenants and
timelines are 16-byte identifiers printed as 32 lowercase hex digits; a
`PageKey` names one 8 KiB page by relation, fork and block.

The derived `Ord` of the Rust types matters, because the page store keeps its
versions in maps sorted on `(PageKey, Lsn)`: a range scan from `(key, 0)` to
`(key, lsn)` is only the history of `key` because the order is lexicographic.
Both orders are therefore set up here as `LinearOrder` instances, `Lsn` by its
raw value and `PageKey` field by field in declaration order.

Machine integers keep their width. Release builds of the workspace do not turn
on overflow checks, so arithmetic on them wraps, as it does for `UInt64`.
-/

namespace AethelDB

/-- `Error::parse`, as it is displayed. -/
def parseError (msg : String) : String := "parse error: " ++ msg

/-! ## Log sequence numbers -/

/-- A WAL position. `0` is the canonical invalid position. -/
structure Lsn where
  raw : UInt64
deriving Repr

namespace Lsn

theorem toNat_injective : Function.Injective (fun l : Lsn => l.raw.toNat) := by
  intro a b h
  cases a
  cases b
  simp only [Lsn.mk.injEq]
  exact UInt64.toNat_inj.mp h

instance : LinearOrder Lsn := LinearOrder.lift' (fun l => l.raw.toNat) toNat_injective

instance (n : Nat) : OfNat Lsn n := ⟨⟨UInt64.ofNat n⟩⟩

/-- The zero position, PostgreSQL's `InvalidXLogRecPtr`. -/
def INVALID : Lsn := 0

/-- The largest position, `Lsn(u64::MAX)`. -/
def MAX : Lsn := ⟨UInt64.ofNat (2 ^ 64 - 1)⟩

def isValid (l : Lsn) : Bool := l.raw != 0

theorem le_iff_toNat {a b : Lsn} : a ≤ b ↔ a.raw.toNat ≤ b.raw.toNat := Iff.rfl

theorem lt_iff_toNat {a b : Lsn} : a < b ↔ a.raw.toNat < b.raw.toNat := Iff.rfl

theorem INVALID_le (l : Lsn) : INVALID ≤ l := by
  rw [le_iff_toNat]
  exact Nat.zero_le _

/-- Upper-case hexadecimal digits of a number, without leading zeros. -/
def hexUpper (n : Nat) : String := (String.ofList (Nat.toDigits 16 n)).toUpper

/-- PostgreSQL's textual form: the two 32-bit halves in hex, split by a slash. -/
def display (l : Lsn) : String :=
  hexUpper (l.raw.toNat / 2 ^ 32) ++ "/" ++ hexUpper (l.raw.toNat % 2 ^ 32)

end Lsn

/-! ## Tenant and timeline identifiers -/

/-- The 16 raw bytes behind an identifier. -/
structure HexId where
  bytes : List UInt8
  size : bytes.length = 16
deriving DecidableEq

namespace HexId

/-- The identifier made of sixteen copies of one byte. -/
def ofByte (b : UInt8) : HexId := ⟨List.replicate 16 b, List.length_replicate⟩

/-- The identifier made of the first sixteen bytes; the callers have at least as many. -/
def fromBytes (bytes : List UInt8) : HexId := ⟨bytes.takeD 16 0, List.takeD_length ..⟩

theorem fromBytes_bytes (i : HexId) : fromBytes i.bytes = i := by
  obtain ⟨bytes, hsize⟩ := i
  have htake : bytes.takeD 16 0 = bytes := by
    rw [List.takeD_eq_take 0 hsize.ge, ← hsize, List.take_length]
  simp only [fromBytes, htake]

/-- Two lowercase hex digits per byte. -/
def display (i : HexId) : String :=
  String.ofList (i.bytes.flatMap fun b =>
    [Nat.digitChar (b.toNat / 16), Nat.digitChar (b.toNat % 16)])

end HexId

/-- Identifies one isolated database instance. -/
structure TenantId where
  id : HexId
deriving DecidableEq

/-- Identifies one branch of a tenant's history. -/
structure TimelineId where
  id : HexId
deriving DecidableEq

/-- The all-zero tenant, selected when a request names none. -/
def TenantId.ZERO : TenantId := ⟨HexId.ofByte 0⟩

def TimelineId.ZERO : TimelineId := ⟨HexId.ofByte 0⟩

/-! ## Page addresses -/

def PAGE_SIZE : Nat := 8192

/-- Which physical fork of a relation a page belongs to. -/
inductive ForkNumber where
  | main
  | fsm
  | visibilityMap
  | init
deriving DecidableEq, Repr

def ForkNumber.toByte : ForkNumber → UInt8
  | .main => 0
  | .fsm => 1
  | .visibilityMap => 2
  | .init => 3

def ForkNumber.fromRaw (raw : UInt8) : Option ForkNumber :=
  if raw = 0 then some .main
  else if raw = 1 then some .fsm
  else if raw = 2 then some .visibilityMap
  else if raw = 3 then some .init
  else none

theorem ForkNumber.fromRaw_toByte (fork : ForkNumber) : fromRaw fork.toByte = some fork := by
  cases fork <;> rfl

structure RelTag where
  spcNode : UInt32
  dbNode : UInt32
  relNode : UInt32
  fork : ForkNumber
deriving Repr

namespace RelTag

def orderKey (r : RelTag) : Nat ×ₗ Nat ×ₗ Nat ×ₗ Nat :=
  toLex (r.spcNode.toNat, toLex (r.dbNode.toNat, toLex (r.relNode.toNat, r.fork.toByte.toNat)))

theorem orderKey_injective : Function.Injective orderKey := by
  intro hx hx2 h
  obtain ⟨s, d, r, f⟩ := hx
  obtain ⟨s', d', r', f'⟩ := hx2
  simp only [orderKey, EmbeddingLike.apply_eq_iff_eq, Prod.mk.injEq, UInt32.toNat_inj,
    UInt8.toNat_inj] at h
  obtain ⟨rfl, rfl, rfl, hf⟩ := h
  have hff : f = f' := by
    revert hf
    cases f <;> cases f' <;> decide
  rw [hff]

instance : LinearOrder RelTag := LinearOrder.lift' orderKey orderKey_injective

end RelTag

/-- The full address of one page: a relation fork and a block number. It is
deliberately free of any LSN. -/
structure PageKey where
  rel : RelTag
  block : UInt32
deriving Repr

namespace PageKey

def orderKey (k : PageKey) : RelTag ×ₗ Nat := toLex (k.rel, k.block.toNat)

theorem orderKey_injective : Function.Injective orderKey := by
  intro hx hx2 h
  obtain ⟨r, b⟩ := hx
  obtain ⟨r', b'⟩ := hx2
  simp only [orderKey, EmbeddingLike.apply_eq_iff_eq, Prod.mk.injEq, UInt32.toNat_inj] at h
  rw [h.1, h.2]

instance : LinearOrder PageKey := LinearOrder.lift' orderKey orderKey_injective

end PageKey

end AethelDB
