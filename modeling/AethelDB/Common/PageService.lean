import AethelDB.Common.Basic

/-!
# The page service protocol

The messages of `common/src/page_service.rs`: what the compute's storage manager
asks of the page server, and what it is told. A `GetPage` whose LSN is
`Lsn::INVALID` is documented there to mean "the latest version".
-/

namespace AethelDB

inductive Request where
  | getPage (tenant : TenantId) (timeline : TimelineId) (rel : RelTag) (block : UInt32) (lsn : Lsn)
  | getRelSize (tenant : TenantId) (timeline : TimelineId) (rel : RelTag) (lsn : Lsn)

namespace Request

def tenant : Request → TenantId
  | getPage t .. => t
  | getRelSize t .. => t

def timeline : Request → TimelineId
  | getPage _ tl .. => tl
  | getRelSize _ tl .. => tl

end Request

inductive Response where
  | page (bytes : List UInt8)
  | relSize (n : UInt32)
  | notFound
  | error (msg : String)
deriving DecidableEq

end AethelDB
