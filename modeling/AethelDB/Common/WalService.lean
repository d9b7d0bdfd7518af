import AethelDB.Common.Basic

/-!
# The WAL service protocol

The messages of `common/src/wal_service.rs` that safekeepers exchange with the
compute, the page server and each other. Positions are 64-bit and their arithmetic wraps, as
in a release build.
-/

namespace AethelDB

inductive Status where
  | ok
  | staleTerm
  | rejected
deriving DecidableEq

/-- A run of WAL bytes streamed from compute to a safekeeper. -/
structure AppendRequest where
  tenant : TenantId
  timeline : TimelineId
  term : UInt64
  startLsn : Lsn
  payload : List UInt8

/-- LSN just past the last byte of the run. -/
def AppendRequest.endLsn (r : AppendRequest) : Lsn :=
  ⟨r.startLsn.raw + UInt64.ofNat r.payload.length⟩

structure AppendResponse where
  status : Status
  term : UInt64
  flushLsn : Lsn
  /-- The quorum-committed LSN: durable on a majority of safekeepers. -/
  commitLsn : Lsn
deriving DecidableEq

structure ReadRequest where
  tenant : TenantId
  timeline : TimelineId
  startLsn : Lsn
  /-- Maximum number of WAL bytes to return in one chunk. -/
  maxBytes : UInt32

/-- A safekeeper's reply carrying a chunk of committed WAL. -/
structure ReadResponse where
  status : Status
  commitLsn : Lsn
  /-- LSN of the first byte of `payload`: above the requested one if that had fallen
  below the retained range. -/
  startLsn : Lsn
  payload : List UInt8
deriving DecidableEq

end AethelDB
