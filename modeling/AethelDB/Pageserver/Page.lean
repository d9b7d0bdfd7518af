import AethelDB.Common.Basic
import AethelDB.Lib.ByteLog
import AethelDB.Lib.History

/-!
# Page versions and the ingest record

`pageserver/src/page.rs`. The page server keeps the history of a page as a list
of versions: a full 8 KiB *image*, a *delta* of byte edits, or a raw WAL record
that only a wal-redo backend can apply. A `Modification` is one version
addressed to one page, the unit the repository ingests.

`applyTo` is partial in two ways the callers have to live with: an image of the
wrong size and an edit past the end of the page are errors, and a WAL record is
never applied here at all. What it does return keeps the page size
(`applyTo_length`). A delta overwrites fixed bytes, so applying it again changes
nothing (`foldlM_applyEdit_twice`), although its edits may overwrite each other.
-/

namespace AethelDB.Pageserver

open AethelDB.Lib

structure ByteEdit where
  offset : UInt16
  data : List UInt8
deriving DecidableEq, Repr

/-- A raw PostgreSQL WAL record addressed to one page; `willInit` marks one that
rebuilds the page from scratch. (`record` is the source's `rec`, a name Lean
keeps for the recursor.) -/
structure WalRecord where
  willInit : Bool
  record : List UInt8
deriving DecidableEq, Repr

inductive PageVersion where
  | image (img : List UInt8)
  | delta (edits : List ByteEdit)
  | walRecord (w : WalRecord)
deriving DecidableEq, Repr

/-- Errors from decoding ingest records or applying versions. -/
inductive PageError where
  | truncated (what : String)
  | badImageSize (size : Nat)
  | editOutOfBounds (offset len : Nat)
  | badVersionTag (tag : UInt8)
  | needsRedo
  | redo (msg : String)
deriving DecidableEq, Repr

def PageError.display : PageError → String
  | .truncated what => "buffer truncated while decoding " ++ what
  | .badImageSize n => "image is " ++ toString n ++ " bytes, expected " ++ toString PAGE_SIZE
  | .editOutOfBounds offset len =>
    "edit at offset " ++ toString offset ++ " length " ++ toString len
      ++ " runs past the end of the page"
  | .badVersionTag t => "unknown version tag " ++ toString t.toNat
  | .needsRedo => "this page version is a raw WAL record and requires WAL redo to apply"
  | .redo msg => "reconstruction via WAL redo failed: " ++ msg

namespace PageVersion

variable {page q : List UInt8}

/-- One byte edit of a delta, `page[start..end].copy_from_slice(&data)`. -/
def applyEdit (page : List UInt8) (e : ByteEdit) : Except PageError (List UInt8) :=
  if PAGE_SIZE < e.offset.toNat + e.data.length then
    .error (.editOutOfBounds e.offset.toNat e.data.length)
  else .ok (copyAt page e.offset.toNat e.data)

def applyTo (v : PageVersion) (page : List UInt8) : Except PageError (List UInt8) :=
  match v with
  | .image img => if img.length ≠ PAGE_SIZE then .error (.badImageSize img.length) else .ok img
  | .delta edits => edits.foldlM applyEdit page
  | .walRecord _ => .error .needsRedo

/-- Whether this version can start a reconstruction with no prior page. -/
def isBase : PageVersion → Bool
  | .image _ => true
  | .walRecord w => w.willInit
  | .delta _ => false

theorem applyEdit_length {e : ByteEdit} (hp : page.length = PAGE_SIZE)
    (h : applyEdit page e = .ok q) : q.length = PAGE_SIZE := by
  unfold applyEdit at h
  split at h
  · simp at h
  · next hle =>
    injection h with h
    rw [← h, copyAt_length (by omega), hp]

theorem foldlM_applyEdit_length :
    ∀ {edits : List ByteEdit} {page q : List UInt8}, page.length = PAGE_SIZE →
      edits.foldlM applyEdit page = .ok q → q.length = PAGE_SIZE := by
  intro edits
  induction edits with
  | nil =>
    intro page q hp h
    injection h with h
    rw [← h, hp]
  | cons e edits ih =>
    intro page q hp h
    rw [List.foldlM_cons] at h
    cases he : applyEdit page e with
    | error err => rw [he] at h; exact absurd h (by simp [Bind.bind, Except.bind])
    | ok p =>
      rw [he] at h
      exact ih (applyEdit_length hp he) h

/-- Applying a version to a full-size page yields a full-size page. -/
theorem applyTo_length {v : PageVersion} (hp : page.length = PAGE_SIZE)
    (h : v.applyTo page = .ok q) : q.length = PAGE_SIZE := by
  cases v with
  | image img =>
    simp only [applyTo] at h
    split at h
    · simp at h
    · next hsz =>
      injection h with h
      rw [← h]
      exact not_not.mp hsz
  | delta edits => exact foldlM_applyEdit_length hp h
  | walRecord w => simp [applyTo] at h

/-- Whether the edits of a delta fit does not depend on the page. -/
theorem foldlM_applyEdit_isOk :
    ∀ {edits : List ByteEdit} {page q : List UInt8} (page' : List UInt8),
      edits.foldlM applyEdit page = .ok q → ∃ q', edits.foldlM applyEdit page' = .ok q' := by
  intro edits
  induction edits with
  | nil => exact fun page' _ => ⟨page', rfl⟩
  | cons e edits ih =>
    intro page q page' h
    rw [List.foldlM_cons] at h ⊢
    by_cases hfit : PAGE_SIZE < e.offset.toNat + e.data.length
    · rw [applyEdit, if_pos hfit] at h
      simp [Bind.bind, Except.bind] at h
    · rw [applyEdit, if_neg hfit] at h ⊢
      exact ih (copyAt page' e.offset.toNat e.data) h

/-- At each offset the edits of a delta either leave every page its own byte or
put the same byte into every page. -/
theorem getElem?_foldlM_applyEdit (edits : List ByteEdit) (k : Nat) :
    (∀ page q, page.length = PAGE_SIZE → edits.foldlM applyEdit page = .ok q → q[k]? = page[k]?) ∨
      ∃ byte, ∀ page q, page.length = PAGE_SIZE → edits.foldlM applyEdit page = .ok q →
        q[k]? = byte := by
  induction edits with
  | nil =>
    refine Or.inl fun page q _ h => ?_
    injection h with h
    rw [h]
  | cons e edits ih =>
    have hfirst : ∀ page q, page.length = PAGE_SIZE → (e :: edits).foldlM applyEdit page = .ok q →
        e.offset.toNat + e.data.length ≤ PAGE_SIZE ∧
          (copyAt page e.offset.toNat e.data).length = PAGE_SIZE ∧
          edits.foldlM applyEdit (copyAt page e.offset.toNat e.data) = .ok q := by
      intro page q hp h
      rw [List.foldlM_cons] at h
      by_cases hfit : PAGE_SIZE < e.offset.toNat + e.data.length
      · rw [applyEdit, if_pos hfit] at h
        simp [Bind.bind, Except.bind] at h
      · rw [applyEdit, if_neg hfit] at h
        refine ⟨not_lt.mp hfit, ?_, h⟩
        rw [copyAt_length (by omega), hp]
    rcases ih with hleave | ⟨byte, hput⟩
    · -- later edits leave offset `k` alone, so this one decides
      by_cases hk : e.offset.toNat ≤ k ∧ k < e.offset.toNat + e.data.length
      · refine Or.inr ⟨e.data[k - e.offset.toNat]?, fun page q hp h => ?_⟩
        obtain ⟨hfit, hlen, h⟩ := hfirst page q hp h
        rw [hleave _ q hlen h, getElem?_copyAt_inside (by omega) hk.1 hk.2]
      · refine Or.inl fun page q hp h => ?_
        obtain ⟨hfit, hlen, h⟩ := hfirst page q hp h
        rw [hleave _ q hlen h, getElem?_copyAt_outside (by omega) (by omega)]
    · refine Or.inr ⟨byte, fun page q hp h => ?_⟩
      obtain ⟨_, hlen, h⟩ := hfirst page q hp h
      exact hput _ q hlen h

theorem foldlM_applyEdit_twice {edits : List ByteEdit} (hp : page.length = PAGE_SIZE)
    (h : edits.foldlM applyEdit page = .ok q) : edits.foldlM applyEdit q = .ok q := by
  have hq := foldlM_applyEdit_length hp h
  obtain ⟨q', h'⟩ := foldlM_applyEdit_isOk q h
  rw [h']
  refine congrArg Except.ok (List.ext_getElem? fun k => ?_)
  rcases getElem?_foldlM_applyEdit edits k with hleave | ⟨byte, hput⟩
  · exact hleave q q' hq h'
  · rw [hput q q' hq h', hput page q hp h]

end PageVersion

structure Modification where
  rel : RelTag
  block : UInt32
  lsn : Lsn
  version : PageVersion
deriving DecidableEq

namespace Modification

def key (m : Modification) : PageKey := ⟨m.rel, m.block⟩

/-- Where the version is filed: `(PageKey, Lsn)`, ordered lexicographically. -/
def slot (m : Modification) : PageKey ×ₗ Lsn := toLex (m.key, m.lsn)

end Modification

/-! ## The version codec -/

/-- `w` bytes of `n`, most significant first. -/
def beBytes : (w : Nat) → Nat → List UInt8
  | 0, _ => []
  | w + 1, n => UInt8.ofNat (n / 256 ^ w) :: beBytes w n

def TAG_IMAGE : UInt8 := 0
def TAG_DELTA : UInt8 := 1
def TAG_WALRECORD : UInt8 := 2

/-- Encode a version as it appears in ingest records and layer files. Counts and
lengths are cut to their field width. -/
def writeVersion : PageVersion → List UInt8
  | .image img => TAG_IMAGE :: img
  | .delta edits =>
    TAG_DELTA :: beBytes 2 edits.length ++
      edits.flatMap fun e =>
        beBytes 2 e.offset.toNat ++ beBytes 2 e.data.length ++ e.data
  | .walRecord w =>
    [TAG_WALRECORD, if w.willInit then 1 else 0] ++ beBytes 4 w.record.length ++ w.record

end AethelDB.Pageserver
