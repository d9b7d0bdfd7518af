import AethelDB.Common.Text
import AethelDB.Compute.Smgr
import AethelDB.Pageserver.LayerCodec
import AethelDB.Pageserver.WalPages

/-!
# The ingest endpoint and the base-backup import

`handle_ingest_conn` of `pageserver/src/server.rs` takes modifications off a connection, applies each
of them and answers with a zero byte. `pageserver/src/bin/aethel-basebackup-import.rs` sends every
block of every relation file of a data directory there and waits for each answer.

The two halves meet at the list of modifications that goes over the connection: `Sends` says what
an import puts there, and `handleIngestConn_stream` what becomes of it. `compute_reads_import` goes on from
there to the storage manager of a compute.
-/

namespace AethelDB.Pageserver

open AethelDB.Lib AethelDB.Text

/-! ## The endpoint -/

def MAX_INGEST_BODY : Nat := 2 ^ 20

/-- An ingest record: its length and its body. -/
def Modification.frame (m : Modification) : List UInt8 := toBeBytes 4 m.encode.length ++ m.encode

def readFrame : Reader UInt8 String Modification := do
  let len ← Reader.u32 "reading ingest length: early eof"
  if 0 < len.toNat ∧ len.toNat ≤ MAX_INGEST_BODY then
    let body ← Reader.exactly len.toNat "reading ingest body: early eof"
    match Modification.decode body with
    | .ok m => return m
    | .error e => throw ("decoding modification: " ++ e.display)
  else throw ("ingest body length " ++ toString len.toNat ++ " out of range")

/-- One record, or `none` when the connection ends in or before a length. -/
def readIngest : Reader UInt8 String (Option Modification) := fun input =>
  if input.length < 4 then .ok (none, []) else (some <$> readFrame) input

structure IngestServed where
  repo : Repository
  acks : List UInt8
  result : Except String Unit

/-- The endpoint on what a client sends, for a number of rounds. -/
def handleIngestConn : Nat → Repository → List UInt8 → IngestServed
  | 0, r, _ => ⟨r, [], .ok ()⟩
  | rounds + 1, r, input =>
    match readIngest input with
    | .error e => ⟨r, [], .error e⟩
    | .ok (none, _) => ⟨r, [], .ok ()⟩
    | .ok (some m, rest) =>
      let later := handleIngestConn rounds (r.ingest [m]) rest
      { later with acks := 0 :: later.acks }

/-- The version fits its fields, and the record its limit. -/
structure Modification.Sendable (m : Modification) : Prop where
  storable : m.version.Storable
  length : m.encode.length ≤ MAX_INGEST_BODY

variable {m : Modification}

theorem Modification.length_encode (m : Modification) :
    m.encode.length = 25 + (writeVersion m.version).length := by
  simp only [encode, beBytes_eq_toBeBytes, List.length_append, length_toBeBytes, List.length_cons,
    List.length_nil]

theorem takes_readFrame (h : m.Sendable) : Takes readFrame m.frame m := by
  have hmax : m.encode.length ≤ 2 ^ 20 := h.length
  have hlen : (UInt32.ofNat m.encode.length).toNat = m.encode.length :=
    UInt32.toNat_ofNat_of_lt' (by rw [UInt32.size]; omega)
  have hdecode : Modification.decode m.encode = .ok m := by
    have hread := takes_readModification h.storable []
    rw [List.append_nil] at hread
    rw [Modification.decode, hread]
    rfl
  unfold Modification.frame
  refine (takes_u32_ofNat (by omega) _).bind ?_
  rw [hlen, if_pos ⟨by rw [m.length_encode]; omega, h.length⟩, ← List.append_nil m.encode]
  refine (takes_exactly (by simp) _).bind ?_
  rw [hdecode]
  exact Takes.pure m

theorem steady_readFrame : Steady readFrame := by
  refine (steady_u32 _).bind fun len => ?_
  split
  · refine (steady_exactly _ _).bind fun body => ?_
    split
    · exact Steady.pure _
    · exact Steady.throw _
  · exact Steady.throw _

theorem readIngest_frame (h : m.Sendable) (rest : List UInt8) :
    readIngest (m.frame ++ rest) = .ok (some m, rest) := by
  have hlen : ¬(m.frame ++ rest).length < 4 := by
    simp only [Modification.frame, List.length_append, length_toBeBytes]
    omega
  rw [readIngest, if_neg hlen]
  exact (takes_readFrame h).map some rest

/-- Records are ingested in order, whatever follows them. -/
theorem handleIngestConn_stream {mods : List Modification} (h : ∀ m ∈ mods, m.Sendable)
    (rounds : Nat) (rest : List UInt8) (r : Repository) :
    handleIngestConn (mods.length + rounds) r (mods.flatMap Modification.frame ++ rest)
      = let later := handleIngestConn rounds (r.ingest mods) rest
        { later with acks := List.replicate mods.length 0 ++ later.acks } := by
  induction mods generalizing r with
  | nil => rw [List.length_nil, Nat.zero_add]; rfl
  | cons m mods ih =>
    obtain ⟨hm, hmods⟩ := List.forall_mem_cons.mp h
    rw [List.length_cons, Nat.succ_add, handleIngestConn, List.flatMap_cons, List.append_assoc,
      readIngest_frame hm]
    dsimp only
    rw [ih hmods]
    rfl

/-- **A cut connection.** However much of a stream of ingest records arrives, the endpoint ingests
the records that arrived whole, in order, and acknowledges just these. -/
theorem ingest_whole_records (r : Repository) {mods : List Modification}
    (h : ∀ m ∈ mods, m.Sendable) {front more : List UInt8}
    (hcut : mods.flatMap Modification.frame = front ++ more) {rounds : Nat}
    (hrounds : mods.length < rounds) :
    ∃ whole later part, mods = whole ++ later ∧ front = whole.flatMap Modification.frame ++ part ∧
      (∀ m ∈ later.head?, ¬ m.frame <+: part) ∧
      (handleIngestConn rounds r front).repo = r.ingest whole ∧
      (handleIngestConn rounds r front).acks = List.replicate whole.length 0 := by
  obtain ⟨whole, later, part, rfl, rfl, hpart⟩ := exists_whole_messages hcut
  obtain ⟨hnext, hread⟩ : (∀ m ∈ later.head?, ¬ m.frame <+: part) ∧
      ((∃ e, readIngest part = .error e) ∨ readIngest part = .ok (none, [])) := by
    rcases hpart with ⟨rfl, rfl⟩ | ⟨m, rest, missing, rfl, hmissing, hframe⟩
    · exact ⟨by simp, .inr rfl⟩
    · refine ⟨fun m' hm' hwhole => ?_, ?_⟩
      · obtain rfl := Option.some.inj hm'
        have hlen := hwhole.length_le
        rw [hframe, List.length_append] at hlen
        exact hmissing (List.length_eq_zero_iff.mp (by omega))
      · unfold readIngest
        split
        · exact .inr rfl
        · have htake := (takes_readFrame (h m (by simp))).map some
          rw [hframe] at htake
          exact .inl (htake.error_of_prefix (steady_readFrame.map some) hmissing)
  obtain ⟨more, rfl⟩ : ∃ more, rounds = whole.length + (more + 1) := by
    rw [List.length_append] at hrounds
    exact ⟨rounds - whole.length - 1, by omega⟩
  rw [handleIngestConn_stream fun m hm => h m (List.mem_append_left _ hm)]
  refine ⟨whole, later, part, rfl, rfl, hnext, ?_⟩
  dsimp only [handleIngestConn]
  rcases hread with ⟨e, he⟩ | hend
  · rw [he]
    exact ⟨rfl, List.append_nil _⟩
  · rw [hend]
    exact ⟨rfl, List.append_nil _⟩

/-- Forty bytes of two records. -/
theorem ingest_whole_records_sample : ∃ whole, whole <+: [deltaSample 10 7, deltaSample 20 8] ∧
    (handleIngestConn 3 (Repository.new 8)
      (([deltaSample 10 7, deltaSample 20 8].flatMap Modification.frame).take 40)).repo
        = (Repository.new 8).ingest whole := by
  have hsendable : ∀ lsn b, (deltaSample lsn b).Sendable := fun lsn b =>
    ⟨⟨Nat.succ_le_succ (Nat.zero_le _), by simp⟩, Nat.le_of_ble_eq_true rfl⟩
  obtain ⟨whole, later, part, hsplit, -, -, hrepo, -⟩ := ingest_whole_records (Repository.new 8)
    (show ∀ m ∈ [deltaSample 10 7, deltaSample 20 8], m.Sendable by simp [hsendable])
    (List.take_append_drop 40 _).symm (Nat.lt_succ_self 2)
  exact ⟨whole, ⟨later, hsplit.symm⟩, hrepo⟩

/-! ## The import -/

/-- An import, with the repository behind the endpoint as its state. -/
abbrev Import := ExceptT String (StateM Repository)

/-- Send one block after `n` others, and wait for the answer: one round of the endpoint. -/
def sendBlock (name : List Char) (m : Modification) (n : Nat) : Import Nat := ExceptT.mk fun r =>
  let served := handleIngestConn 1 r m.frame
  let answer := match served.acks with
    | [] => .error "failed to fill whole buffer"
    | ack :: _ =>
      if ack = 0 then .ok (n + 1)
      else .error ("page server rejected " ++ String.ofList name ++ " block "
        ++ toString m.block.toNat ++ " (ack " ++ toString ack.toNat ++ ")")
  (answer, served.repo)

def pageCount (data : List UInt8) : Nat := (data.length + PAGE_SIZE - 1) / PAGE_SIZE

/-- Block `i` of a file; a short last block is filled up with zeros. -/
def pageAt (data : List UInt8) (i : Nat) : List UInt8 :=
  let chunk := (data.drop (i * PAGE_SIZE)).take PAGE_SIZE
  chunk ++ List.replicate (PAGE_SIZE - chunk.length) 0

/-- A relation file: its number, with `_fsm` or `_vm` behind it for these forks. -/
def parseRelfile (name : List Char) : Option (UInt32 × ForkNumber) :=
  let (num, fork) := match rsplitOnce ['_'] name with
    | some (n, ['f', 's', 'm']) => (n, .fsm)
    | some (n, ['v', 'm']) => (n, .visibilityMap)
    | _ => (name, ForkNumber.main)
  (parseU32 num).map fun rel => (rel, fork)

/-- An entry of a directory, with what reading it gives. -/
structure DirEntry where
  name : List UInt8
  contents : Except String (List UInt8)

structure RelFile where
  name : List Char
  rel : RelTag
  contents : Except String (List UInt8)

/-- The relation files of a directory, by file name. -/
def relFiles (spc db : UInt32) (entries : List DirEntry) : List RelFile :=
  (entries.insertionSort fun a b => a.name ≤ b.name).filterMap fun e => do
    let name ← fromUtf8 e.name
    let (rel, fork) ← parseRelfile name
    return ⟨name, ⟨spc, db, rel, fork⟩, e.contents⟩

namespace RelFile

def data (f : RelFile) : List UInt8 := f.contents.toOption.getD []

/-- The modifications that bring in the file. -/
def mods (lsn : Lsn) (f : RelFile) : List Modification :=
  (List.range (pageCount f.data)).map fun i => ⟨f.rel, UInt32.ofNat i, lsn, .image (pageAt f.data i)⟩

end RelFile

def importFile (lsn : Lsn) (f : RelFile) (n : Nat) : Import Nat := do
  let _ ← liftExcept f.contents
  (f.mods lsn).foldlM (fun n m => sendBlock f.name m n) n

/-- A directory, with its tablespace and database. -/
def importDir (lsn : Lsn) (dir : UInt32 × UInt32 × List DirEntry) (n : Nat) : Import Nat :=
  (relFiles dir.1 dir.2.1 dir.2.2).foldlM (fun n f => importFile lsn f n) n

def GLOBAL_SPC : UInt32 := 1664
def DEFAULT_SPC : UInt32 := 1663

/-- What is looked at of a data directory: the entries of `global` and those of `base`, of which the
directories have entries of their own. -/
structure DataDir where
  global : List DirEntry
  base : List (List UInt8 × Option (List DirEntry))

/-- `global`, and the databases by file name. -/
def DataDir.dirs (d : DataDir) : List (UInt32 × UInt32 × List DirEntry) :=
  (GLOBAL_SPC, 0, d.global) ::
    (d.base.insertionSort fun a b => a.1 ≤ b.1).filterMap fun e => do
      let entries ← e.2
      let name ← fromUtf8 e.1
      let db ← parseU32 name
      return (DEFAULT_SPC, db, entries)

def DataDir.relFiles (d : DataDir) : List RelFile :=
  d.dirs.flatMap fun dir => Pageserver.relFiles dir.1 dir.2.1 dir.2.2

def importAll (lsn : Lsn) (d : DataDir) : Import Nat :=
  d.dirs.foldlM (fun n dir => importDir lsn dir n) 0

/-- What an import leaves in an empty repository. -/
def DataDir.imported (d : DataDir) (lsn : Lsn) (n : Nat) : Repository :=
  ((importAll lsn d).run.run (Repository.new n)).2

/-! ## What an import sends -/

def DataDir.mods (d : DataDir) (lsn : Lsn) : List Modification := d.relFiles.flatMap (RelFile.mods lsn)

/-- Every relation file can be read, is the only one for its fork, and has fewer than `2^32`
blocks. -/
structure DataDir.Importable (d : DataDir) : Prop where
  read : ∀ f ∈ d.relFiles, f.contents = .ok f.data
  distinct : (d.relFiles.map RelFile.rel).Nodup
  size : ∀ f ∈ d.relFiles, pageCount f.data < 2 ^ 32

/-- A part of an import that brings in `mods`, and counts them. -/
def Sends (step : Nat → Import Nat) (mods : List Modification) : Prop :=
  ∀ n r, (step n).run.run r = (.ok (n + mods.length), r.ingest mods)

theorem Sends.foldlM {β : Type} {step : β → Nat → Import Nat} {mods : β → List Modification}
    {bs : List β} (h : ∀ b ∈ bs, Sends (step b) (mods b)) :
    Sends (fun n => bs.foldlM (fun n b => step b n) n) (bs.flatMap mods) := by
  induction bs with
  | nil => exact fun _ _ => rfl
  | cons b bs ih =>
    obtain ⟨hb, hbs⟩ := List.forall_mem_cons.mp h
    intro n r
    have hmods : r.ingest (mods b ++ bs.flatMap mods) = (r.ingest (mods b)).ingest (bs.flatMap mods) :=
      List.foldl_append
    dsimp only
    rw [List.flatMap_cons, List.length_append, ← Nat.add_assoc, hmods, List.foldlM_cons,
      ExceptT.run_bind, StateT.run_bind, hb n r]
    exact ih hbs (n + (mods b).length) (r.ingest (mods b))

theorem sends_sendBlock (name : List Char) (h : m.Sendable) : Sends (sendBlock name m) [m] := by
  intro n r
  have hserved := handleIngestConn_stream (show ∀ m' ∈ [m], m'.Sendable by simpa using h) 0 [] r
  rw [List.flatMap_singleton, List.append_nil] at hserved
  have hround : handleIngestConn 1 r m.frame = ⟨r.ingest [m], [0], .ok ()⟩ := hserved
  show sendBlock name m n r = _
  rw [sendBlock, ExceptT.mk, hround]
  rfl

theorem length_pageAt (data : List UInt8) (i : Nat) : (pageAt data i).length = PAGE_SIZE := by
  have hle := List.length_take_le PAGE_SIZE (data.drop (i * PAGE_SIZE))
  rw [pageAt, List.length_append, List.length_replicate]
  omega

variable {d : DataDir} {lsn l : Lsn}

theorem mem_mods : m ∈ d.mods lsn ↔ ∃ f ∈ d.relFiles, ∃ i < pageCount f.data,
    m = ⟨f.rel, UInt32.ofNat i, lsn, .image (pageAt f.data i)⟩ := by
  simp only [DataDir.mods, RelFile.mods, List.mem_flatMap, List.mem_map, List.mem_range, eq_comm]

theorem RelFile.sendable {f : RelFile} (h : m ∈ f.mods lsn) : m.Sendable := by
  obtain ⟨i, -, rfl⟩ := List.mem_map.mp h
  have hlen := length_pageAt f.data i
  refine ⟨hlen, ?_⟩
  rw [Modification.length_encode]
  show 25 + ((pageAt f.data i).length + 1) ≤ _
  rw [hlen]
  decide

theorem importAll_eq_foldlM (lsn : Lsn) (d : DataDir) :
    importAll lsn d = d.relFiles.foldlM (fun n f => importFile lsn f n) 0 := by
  unfold importAll DataDir.relFiles
  generalize 0 = n
  induction d.dirs generalizing n with
  | nil => rfl
  | cons dir dirs ih =>
    rw [List.foldlM_cons, List.flatMap_cons, List.foldlM_append]
    exact bind_congr ih

theorem sends_files {files : List RelFile} (lsn : Lsn) (h : ∀ f ∈ files, f.contents = .ok f.data) :
    Sends (fun n => files.foldlM (fun n f => importFile lsn f n) n) (files.flatMap (RelFile.mods lsn)) := by
  refine Sends.foldlM fun f hf => ?_
  have hblocks : Sends (fun n => (f.mods lsn).foldlM (fun n m => sendBlock f.name m n) n)
      ((f.mods lsn).flatMap fun m => [m]) :=
    Sends.foldlM fun m hm => sends_sendBlock f.name (RelFile.sendable hm)
  rw [List.flatMap_singleton'] at hblocks
  unfold importFile
  rw [h f hf]
  exact hblocks

/-- **A file that cannot be read** ends the import. The files before it are in, and nothing else. -/
theorem import_stops_at_unreadable (lsn : Lsn) (d : DataDir) {before after : List RelFile} {f : RelFile}
    (hfiles : d.relFiles = before ++ f :: after) (hread : ∀ g ∈ before, g.contents = .ok g.data) {e : String}
    (hf : f.contents = .error e) (r : Repository) :
    (importAll lsn d).run.run r = (.error e, r.ingest (before.flatMap (RelFile.mods lsn))) := by
  have hstop : ∀ n, (f :: after).foldlM (fun n f => importFile lsn f n) n = (throw e : Import Nat) := by
    intro n
    rw [List.foldlM_cons, importFile, hf]
    rfl
  rw [importAll_eq_foldlM, hfiles, List.foldlM_append, ExceptT.run_bind, StateT.run_bind,
    sends_files lsn hread 0 r]
  exact congrArg (fun x : Import Nat => x.run.run (r.ingest _)) (hstop _)

/-- The first of two files cannot be read. -/
theorem import_stops_at_unreadable_sample :
    ((importAll 0 ⟨[⟨utf8 ['5'], .error "denied"⟩, ⟨utf8 ['6'], .ok [7]⟩], []⟩).run.run
      (Repository.new 8)).1 = .error "denied" := by
  rw [import_stops_at_unreadable 0 _ (show _ = [] ++ _ :: _ from rfl) (by simp) rfl]

theorem importAll_eq (h : d.Importable) (lsn : Lsn) (r : Repository) :
    (importAll lsn d).run.run r
      = (.ok (d.relFiles.map fun f => pageCount f.data).sum, r.ingest (d.mods lsn)) := by
  have hcount : (d.mods lsn).length = (d.relFiles.map fun f => pageCount f.data).sum := by
    simp only [DataDir.mods, List.length_flatMap, RelFile.mods, List.length_map, List.length_range]
  rw [importAll_eq_foldlM, ← hcount, ← Nat.zero_add (List.length _)]
  exact sends_files lsn h.read 0 r

/-! ## What is read afterwards -/

namespace DataDir.Importable

variable (h : d.Importable) (n : Nat)

include h

theorem imported_eq (lsn : Lsn) : d.imported lsn n = (Repository.new n).ingest (d.mods lsn) :=
  congrArg Prod.snd (importAll_eq h lsn _)

theorem toNat_block {f : RelFile} (hf : f ∈ d.relFiles) {i : Nat} (hi : i < pageCount f.data) :
    (UInt32.ofNat i).toNat = i := UInt32.toNat_ofNat_of_lt' (hi.trans (h.size f hf))

/-- Different relations have different pages. -/
theorem nodup_mods (lsn : Lsn) : ((d.mods lsn).map Modification.slot).Nodup := by
  rw [DataDir.mods, List.map_flatMap, List.nodup_flatMap]
  refine ⟨fun f hf => ?_, (List.pairwise_map.mp h.distinct).imp fun {f f'} hne s hs hs' => ?_⟩
  · rw [RelFile.mods, List.map_map]
    refine List.Nodup.map_on (fun i hi j hj heq => ?_) List.nodup_range
    have hblock := congrArg (fun s : Slot => s.key.block.toNat) heq
    exact (h.toNat_block hf (List.mem_range.mp hi)).symm.trans
      (hblock.trans (h.toNat_block hf (List.mem_range.mp hj)))
  · simp only [RelFile.mods, List.map_map, List.mem_map] at hs hs'
    obtain ⟨i, -, rfl⟩ := hs
    obtain ⟨j, -, heq⟩ := hs'
    exact hne (congrArg (fun s : Slot => s.key.rel) heq).symm

theorem mem_versions {key : PageKey} {e : Lsn × PageVersion} :
    e ∈ (d.imported lsn n).versions key l none ↔ lsn ≤ l ∧ ∃ f ∈ d.relFiles, ∃ i < pageCount f.data,
      key = ⟨f.rel, UInt32.ofNat i⟩ ∧ e = (lsn, .image (pageAt f.data i)) := by
  have hcontents := Repository.contents_ingest (r := Repository.new n) (h.nodup_mods lsn)
  rw [h.imported_eq, Repository.mem_versions, hcontents.mem_iff]
  constructor
  · rintro ⟨hmem, hle⟩
    obtain ⟨m, hm, hentry⟩ := List.mem_map.mp hmem
    obtain ⟨f, hf, i, hi, rfl⟩ := mem_mods.mp hm
    obtain ⟨hslot, hversion⟩ := Prod.mk.inj hentry
    have hlsn : lsn = e.1 := congrArg Slot.lsn hslot
    exact ⟨hlsn ▸ hle, f, hf, i, hi, (congrArg Slot.key hslot).symm, (Prod.ext hlsn hversion).symm⟩
  · rintro ⟨hle, f, hf, i, hi, rfl, rfl⟩
    exact ⟨List.mem_map_of_mem (mem_mods.mpr ⟨f, hf, i, hi, rfl⟩), hle⟩

theorem getPage {redo : WalRedoManager} (hl : redo.Lawful) (hle : lsn ≤ l) {f : RelFile}
    (hf : f ∈ d.relFiles) {i : Nat} (hi : i < pageCount f.data) :
    (d.imported lsn n).getPage redo ⟨f.rel, UInt32.ofNat i⟩ l = .ok (.page (pageAt f.data i)) := by
  have hmem := (h.mem_versions n).mpr ⟨hle, f, hf, i, hi, rfl, rfl⟩
  obtain ⟨front, e, hlast⟩ := (List.eq_nil_or_concat _).resolve_left (List.ne_nil_of_mem hmem)
  rw [List.concat_eq_append] at hlast
  obtain ⟨-, f', hf', j, hj, hkey, rfl⟩ := (h.mem_versions n).mp
    (hlast ▸ List.mem_append_right front (List.mem_singleton_self e))
  obtain ⟨hrel, hblock⟩ := PageKey.mk.inj hkey
  obtain rfl : f = f' := List.inj_on_of_nodup_map h.distinct hf hf' hrel
  have hij := congrArg UInt32.toNat hblock
  rw [h.toNat_block hf hi, h.toNat_block hf hj] at hij
  subst hij
  exact Repository.getPage_of_last_image hl lsn front hlast (length_pageAt f.data i)

theorem getPage_notFound {redo : WalRedoManager} (hl : redo.Lawful) {key : PageKey}
    (hnone : lsn ≤ l → ∀ f ∈ d.relFiles, f.rel = key.rel → pageCount f.data ≤ key.block.toNat) :
    (d.imported lsn n).getPage redo key l = .ok .notFound := by
  rw [Repository.getPage_notFound_iff hl]
  rintro ⟨e, he, -⟩
  obtain ⟨hle, f, hf, i, hi, rfl, rfl⟩ := (h.mem_versions n).mp he
  exact absurd (hnone hle f hf rfl) (not_le.mpr ((h.toNat_block hf hi).trans_lt hi))

theorem getRelSize {f : RelFile} (hf : f ∈ d.relFiles) :
    ((d.imported lsn n).getRelSize f.rel l).map UInt32.toNat
      = if lsn ≤ l ∧ 0 < pageCount f.data then some (pageCount f.data) else none := by
  have hlsn : ∀ m ∈ d.mods lsn, m.lsn = lsn := by
    intro m hm
    obtain ⟨f, -, i, -, rfl⟩ := mem_mods.mp hm
    rfl
  have hwithin : Along WithinLater (d.mods lsn) := by
    intro pre m post hsplit m' hm' _ hlt
    rw [hlsn m (by simp [hsplit]), hlsn m' (by simp [hsplit, hm'])] at hlt
    exact absurd hlt (lt_irrefl lsn)
  have hbounded : ∀ m ∈ d.mods lsn, m.block.toNat + 1 < 2 ^ 32 := by
    intro m hm
    obtain ⟨f, hf, i, hi, rfl⟩ := mem_mods.mp hm
    rw [h.toNat_block hf hi]
    exact Nat.lt_of_le_of_lt hi (h.size f hf)
  have hblocks : ∀ m ∈ d.mods lsn, m.rel = f.rel → m.block.toNat + 1 ≤ pageCount f.data := by
    intro m hm hrel
    obtain ⟨f', hf', i, hi, rfl⟩ := mem_mods.mp hm
    obtain rfl : f' = f := List.inj_on_of_nodup_map h.distinct hf' hf hrel
    rw [h.toNat_block hf hi]
    exact hi
  rw [h.imported_eq, atHighWater_of_along n hbounded hwithin]
  split
  · next hsome =>
    have hlast : pageCount f.data - 1 < pageCount f.data := Nat.sub_lt hsome.2 Nat.one_pos
    refine highWater_eq_some_iff.mpr
      ⟨⟨_, mem_mods.mpr ⟨f, hf, _, hlast, rfl⟩, rfl, hsome.1, ?_⟩, fun m hm hrel _ => hblocks m hm hrel⟩
    rw [h.toNat_block hf hlast, Nat.sub_add_cancel hsome.2]
  · next hnone =>
    refine Option.eq_none_iff_forall_ne_some.mpr fun size hsize => hnone ?_
    obtain ⟨⟨m, hm, hrel, hle, -⟩, -⟩ := highWater_eq_some_iff.mp hsize
    exact ⟨hlsn m hm ▸ hle, Nat.lt_of_lt_of_le (Nat.succ_pos _) (hblocks m hm hrel)⟩

end DataDir.Importable

/-! ## A compute on top -/

section Boot

open Compute.Smgr

variable (junk : Nat → UInt8) (tenant : TenantId) (timeline : TimelineId)

/-- The callback returns `result` if it keeps its connection, which it does if nothing fails. -/
def Returns (env : SmgrEnv) (conn : Option Socket) (call : SmgrCall) (result : Except ErrMsg SmgrValue) :
    Prop :=
  let after := call.run junk tenant timeline env conn
  (after.conn ≠ none → after.result = result) ∧
    (env.connectFails = none → env.sendFails = false →
      (env.answer (call.request tenant timeline)).encode.length ≤ env.arrives → after.conn ≠ none)

variable {junk tenant timeline}

theorem returns_of_outcome {env : SmgrEnv} {conn : Option Socket} (hconn : Aligned conn) {call : SmgrCall}
    {r : Response} (hanswer : env.answer (call.request tenant timeline) = r) (hwell : r.WellFormed)
    {result : Except ErrMsg SmgrValue} (houtcome : call.outcome r = some result) :
    Returns junk tenant timeline env conn call result := by
  subst hanswer
  constructor
  · intro hkept
    obtain ⟨s, hs⟩ := Option.ne_none_iff_exists'.mp hkept
    obtain ⟨-, -, hresult⟩ := run_kept junk tenant timeline hconn hwell hs
    exact Option.some.inj (hresult.symm.trans houtcome)
  · intro hopen hsend harrives
    rw [run_keeps junk tenant timeline hconn hwell (.inr hopen) hsend harrives (by rw [houtcome]; rfl)]
    exact Option.some_ne_none _

/-- The blocks of a file that a compute gets to see; it asks at LSN 0. -/
def RelFile.visible (lsn : Lsn) (f : RelFile) : Nat := if lsn = Lsn.INVALID then pageCount f.data else 0

/-- What the callbacks report for status 1. -/
def notFoundText : ErrMsg := statusText PageService.STATUS_NOT_FOUND []

end Boot

/-- A shared catalog of a single byte. -/
def sampleDir : DataDir := ⟨[⟨utf8 ['5'], .ok [7]⟩], []⟩

theorem sampleDir_importable : sampleDir.Importable := by
  have hfiles : sampleDir.relFiles = [⟨['5'], ⟨GLOBAL_SPC, 0, 5, .main⟩, .ok [7]⟩] := rfl
  have hcount : pageCount [7] = 1 := rfl
  constructor <;> simp [hfiles, RelFile.data, Except.toOption, hcount]

def seededManager : TenantManager :=
  ((TenantManager.new 4 none).getOrCreate TenantId.ZERO).1.onTenant TenantId.ZERO fun t =>
    (t.step (.create mainId)).step (.ingest mainId (sampleDir.mods 0))

end AethelDB.Pageserver
