import AethelDB.Lib.Wire
import AethelDB.Pageserver.Repository

/-!
# Layer files and ingest records

The decoders of `pageserver/src/{page,layer}.rs`. A layer file is a header and one entry after the
other; an entry is a page address, an LSN and a version, which is also what an ingest record is.
Nothing says how long an entry is: its version tells by its tag and by the counts and lengths in
it, so one wrong length would put every later entry out of step.

The source moves a position through the buffer and checks it against the length before each read.
Here a decoder reads from what is left (`Reader`), with the same failures in the same places. So
`Takes` is the round trip of each part whatever follows it, and the readers are `Steady`, which is
why a file that was cut short is always refused.
-/

namespace AethelDB.Pageserver

open AethelDB.Lib

/-! ## Versions -/

def readEdit : Reader UInt8 PageError ByteEdit := do
  let offset ← Reader.u16 (.truncated "u16")
  let len ← Reader.u16 (.truncated "u16")
  let data ← Reader.exactly len.toNat (.truncated "edit data")
  return ⟨offset, data⟩

/-- Read a version, as `writeVersion` leaves it. -/
def readVersion : Reader UInt8 PageError PageVersion := do
  let tag ← Reader.byte (.truncated "version tag")
  if tag = TAG_IMAGE then
    let img ← Reader.exactly PAGE_SIZE (.truncated "image")
    return .image img
  else if tag = TAG_DELTA then
    let count ← Reader.u16 (.truncated "u16")
    let edits ← readEdit.times count.toNat
    return .delta edits
  else if tag = TAG_WALRECORD then
    let willInit ← Reader.byte (.truncated "will_init")
    let len ← Reader.u32 (.truncated "u32")
    let record ← Reader.exactly len.toNat (.truncated "wal record")
    return .walRecord ⟨willInit != 0, record⟩
  else throw (.badVersionTag tag)

/-- The version fits the fields it is written into. -/
def PageVersion.Storable : PageVersion → Prop
  | .image img => img.length = PAGE_SIZE
  | .delta edits => edits.length ≤ 65535 ∧ ∀ e ∈ edits, e.data.length ≤ 65535
  | .walRecord w => w.record.length < 2 ^ 32

theorem beBytes_eq_toBeBytes (w n : Nat) : beBytes w n = toBeBytes w n := by
  induction w with
  | zero => rfl
  | succ w ih => rw [beBytes, toBeBytes, ih]

theorem takes_u16_length {n : Nat} (h : n ≤ 65535) (e : PageError) :
    Takes (Reader.u16 e) (beBytes 2 n) (UInt16.ofNat n) := by
  have hn : (UInt16.ofNat n).toNat = n := UInt16.toNat_ofNat_of_lt' (by rw [UInt16.size]; omega)
  have htake := takes_u16 (UInt16.ofNat n) e
  rwa [hn, ← beBytes_eq_toBeBytes] at htake

theorem takes_readEdit {e : ByteEdit} (h : e.data.length ≤ 65535) :
    Takes readEdit (beBytes 2 e.offset.toNat ++ beBytes 2 e.data.length ++ e.data) e := by
  have hlen : (UInt16.ofNat e.data.length).toNat = e.data.length :=
    UInt16.toNat_ofNat_of_lt' (by rw [UInt16.size]; omega)
  rw [List.append_assoc, beBytes_eq_toBeBytes]
  refine (takes_u16 e.offset _).bind ((takes_u16_length h _).bind ?_)
  exact (takes_exactly hlen.symm _).bind_pure fun data => (⟨e.offset, data⟩ : ByteEdit)

theorem takes_readVersion {v : PageVersion} (h : v.Storable) : Takes readVersion (writeVersion v) v := by
  cases v with
  | image img =>
    refine (takes_byte TAG_IMAGE _).bind ?_
    exact (takes_exactly h _).bind_pure PageVersion.image
  | delta edits =>
    obtain ⟨hcount, hedits⟩ := h
    have hlen : (UInt16.ofNat edits.length).toNat = edits.length :=
      UInt16.toNat_ofNat_of_lt' (by rw [UInt16.size]; omega)
    have htimes := Takes.times fun e he => takes_readEdit (hedits e he)
    rw [← hlen] at htimes
    refine (takes_byte TAG_DELTA _).bind ((takes_u16_length hcount _).bind ?_)
    exact htimes.bind_pure PageVersion.delta
  | walRecord w =>
    have hlen : (UInt32.ofNat w.record.length).toNat = w.record.length :=
      UInt32.toNat_ofNat_of_lt' h
    have hlength := takes_u32 (UInt32.ofNat w.record.length) (PageError.truncated "u32")
    rw [hlen, ← beBytes_eq_toBeBytes] at hlength
    have hflag : ((if w.willInit then 1 else 0 : UInt8) != 0) = w.willInit := by
      cases w.willInit <;> rfl
    refine (takes_byte TAG_WALRECORD _).bind ((takes_byte _ _).bind (hlength.bind ?_))
    rw [hflag]
    exact (takes_exactly hlen.symm _).bind_pure fun record =>
      PageVersion.walRecord ⟨w.willInit, record⟩

theorem steady_readEdit : Steady readEdit :=
  (steady_u16 _).bind fun _ => (steady_u16 _).bind fun _ => (steady_exactly _ _).bind fun _ =>
    Steady.pure _

theorem steady_readVersion : Steady readVersion := by
  refine (steady_byte _).bind fun tag => ?_
  split
  · exact (steady_exactly _ _).bind fun _ => Steady.pure _
  · split
    · exact (steady_u16 _).bind fun _ => (steady_readEdit.times _).bind fun _ => Steady.pure _
    · split
      · exact (steady_byte _).bind fun _ => (steady_u32 _).bind fun _ =>
          (steady_exactly _ _).bind fun _ => Steady.pure _
      · exact Steady.throw _

/-! ## Ingest records -/

/-- A fork, by its number on the wire. -/
def readFork : Reader UInt8 PageError ForkNumber := do
  let raw ← Reader.byte (.truncated "fork")
  match ForkNumber.fromRaw raw with
  | some fork => return fork
  | none => throw (.truncated "fork")

/-- A page address, an LSN and a version: the fields that `Modification::decode` and the loop of
`Layer::deserialize` both read. -/
def readModification : Reader UInt8 PageError Modification := do
  let spcNode ← Reader.u32 (.truncated "u32")
  let dbNode ← Reader.u32 (.truncated "u32")
  let relNode ← Reader.u32 (.truncated "u32")
  let fork ← readFork
  let block ← Reader.u32 (.truncated "u32")
  let lsn ← Reader.u64 (.truncated "u64")
  let version ← readVersion
  return ⟨⟨spcNode, dbNode, relNode, fork⟩, block, ⟨lsn⟩, version⟩

namespace Modification

/-- The body of an ingest record. -/
def encode (m : Modification) : List UInt8 :=
  beBytes 4 m.rel.spcNode.toNat ++ beBytes 4 m.rel.dbNode.toNat ++ beBytes 4 m.rel.relNode.toNat
    ++ [m.rel.fork.toByte] ++ beBytes 4 m.block.toNat ++ beBytes 8 m.lsn.raw.toNat
    ++ writeVersion m.version

def decode (buf : List UInt8) : Except PageError Modification := Prod.fst <$> readModification buf

end Modification

theorem takes_readFork (fork : ForkNumber) : Takes readFork [fork.toByte] fork := by
  cases fork <;> exact fun _ => rfl

theorem takes_readModification {m : Modification} (h : m.version.Storable) :
    Takes readModification m.encode m := by
  unfold Modification.encode
  simp only [beBytes_eq_toBeBytes, List.append_assoc]
  refine (takes_u32 _ _).bind ((takes_u32 _ _).bind ((takes_u32 _ _).bind ?_))
  refine (takes_readFork _).bind ((takes_u32 _ _).bind ((takes_u64 _ _).bind ?_))
  exact (takes_readVersion h).bind_pure fun version => { m with version := version }

theorem steady_readModification : Steady readModification := by
  refine (steady_u32 _).bind fun _ => (steady_u32 _).bind fun _ => (steady_u32 _).bind fun _ => ?_
  refine Steady.bind ?_ fun _ => (steady_u32 _).bind fun _ => (steady_u64 _).bind fun _ =>
    steady_readVersion.bind fun _ => Steady.pure _
  refine (steady_byte _).bind fun raw => ?_
  split
  · exact Steady.pure _
  · exact Steady.throw _

/-! ## Layer files -/

namespace Layer

/-- The file from its first byte on. -/
def read : Reader UInt8 PageError Layer := do
  let magic ← Reader.u32 (.truncated "u32")
  if magic ≠ UInt32.ofNat LAYER_MAGIC then throw (.truncated "layer magic")
  else
    let ver ← Reader.byte (.truncated "layer version")
    if ver ≠ LAYER_VERSION then throw (.badVersionTag ver)
    else
      let id ← Reader.u64 (.truncated "u64")
      let count ← Reader.u32 (.truncated "u32")
      let entries ← readModification.times count.toNat
      return ⟨id.toNat, OrdMap.empty.insertAll (entries.map fun m => (m.slot, m.version))⟩

/-- Decode a layer file. Bytes after the last entry are not looked at. -/
def deserialize (buf : List UInt8) : Except PageError Layer := Prod.fst <$> read buf

/-- What ingest can have put into a layer: ids are 64-bit, counts and lengths fit their fields. -/
structure Storable (l : Layer) : Prop where
  id : l.id < 2 ^ 64
  count : l.entries.size < 2 ^ 32
  versions : ∀ e ∈ l.entries.entries, e.2.Storable

/-- An entry as the ingest record of its version. -/
def entryRecord (e : Slot × PageVersion) : Modification := ⟨e.1.key.rel, e.1.key.block, e.1.lsn, e.2⟩

/-- **The file is read back**, whatever follows it. -/
theorem takes_read {l : Layer} (h : l.Storable) : Takes read l.serialize l := by
  have hid : (UInt64.ofNat l.id).toNat = l.id := UInt64.toNat_ofNat_of_lt' h.id
  have hcount : (UInt32.ofNat l.entries.size).toNat = l.entries.size := UInt32.toNat_ofNat_of_lt' h.count
  have hentries : Takes (readModification.times l.entries.size) (l.entries.entries.flatMap serializeEntry)
      (l.entries.entries.map entryRecord) := by
    have hread : ∀ m ∈ l.entries.entries.map entryRecord, Takes readModification m.encode m := by
      intro m hm
      obtain ⟨e, he, rfl⟩ := List.mem_map.mp hm
      exact takes_readModification (h.versions e he)
    have htimes := Takes.times hread
    rw [List.length_map, List.flatMap_map] at htimes
    exact htimes
  have hback : (⟨l.id, OrdMap.empty.insertAll
      ((l.entries.entries.map entryRecord).map fun m => (m.slot, m.version))⟩ : Layer) = l := by
    have hslots : ((l.entries.entries.map entryRecord).map fun m => (m.slot, m.version))
        = l.entries.entries := by
      rw [List.map_map]
      exact List.map_id _
    rw [hslots, OrdMap.insertAll_entries]
  have hdone := hentries.bind_pure fun entries : List Modification =>
    (⟨l.id, OrdMap.empty.insertAll (entries.map fun m => (m.slot, m.version))⟩ : Layer)
  rw [hback] at hdone
  have hsize := takes_u32 (UInt32.ofNat l.entries.size) (PageError.truncated "u32")
  have hnumber := takes_u64 (UInt64.ofNat l.id) (PageError.truncated "u64")
  rw [hcount] at hsize
  rw [hid] at hnumber
  unfold serialize
  simp only [beBytes_eq_toBeBytes, List.append_assoc]
  refine (takes_u32 (UInt32.ofNat LAYER_MAGIC) _).bind ?_
  refine (takes_byte LAYER_VERSION _).bind (hnumber.bind (hsize.bind ?_))
  rw [hcount, hid]
  exact hdone

theorem steady_read : Steady read := by
  refine (steady_u32 _).bind fun magic => ?_
  split
  · exact Steady.throw _
  · refine (steady_byte _).bind fun ver => ?_
    split
    · exact Steady.throw _
    · exact (steady_u64 _).bind fun _ => (steady_u32 _).bind fun _ =>
        (steady_readModification.times _).bind fun _ => Steady.pure _

end Layer

/-- **Layer files round-trip.** A layer of versions that fit their fields is read back from its
file, with its id and its versions, so that every range read of it is the same; every strict prefix
of the file is refused; and an ingest record with such a version is read back. -/
theorem layer_round_trip (l : Layer) (h : l.Storable) :
    (∃ l', Layer.deserialize l.serialize = .ok l' ∧ l'.id = l.id ∧ l'.entries = l.entries ∧
        ∀ key lsn, l'.range key lsn = l.range key lsn) ∧
      (∀ front more, l.serialize = front ++ more → more ≠ [] →
        ∃ e, Layer.deserialize front = .error e) ∧
      ∀ m : Modification, m.version.Storable → Modification.decode m.encode = .ok m := by
  refine ⟨⟨l, ?_, rfl, rfl, fun _ _ => rfl⟩, fun front more hsplit hmore => ?_, fun m hm => ?_⟩
  · have hread := Layer.takes_read h []
    rw [List.append_nil] at hread
    rw [Layer.deserialize, hread]
    rfl
  · have htake := Layer.takes_read h
    rw [hsplit] at htake
    obtain ⟨e, he⟩ := htake.error_of_prefix Layer.steady_read hmore
    refine ⟨e, ?_⟩
    rw [Layer.deserialize, he]
    rfl
  · have hread := takes_readModification hm []
    rw [List.append_nil] at hread
    rw [Modification.decode, hread]
    rfl

/-- An image and a delta over it. -/
def sampleLayer : Layer where
  id := 42
  entries :=
    (OrdMap.empty.insert (toLex (⟨⟨1, 2, 3, .main⟩, 0⟩, 10)) (.image (List.replicate PAGE_SIZE 1))).insert
      (toLex (⟨⟨1, 2, 3, .main⟩, 0⟩, 20)) (.delta [⟨5, [9, 9]⟩])

theorem sampleLayer_storable : sampleLayer.Storable where
  id := by decide
  count := by decide
  versions := by
    intro e he
    rcases OrdMap.mem_insert.mp he with rfl | ⟨he, -⟩
    · exact ⟨by decide, by decide⟩
    · rcases OrdMap.mem_insert.mp he with rfl | ⟨he, -⟩
      · exact List.length_replicate
      · nomatch he

theorem layer_round_trip_sample :
    sampleLayer.Storable ∧ ∃ l', Layer.deserialize sampleLayer.serialize = .ok l' ∧
      l'.id = 42 ∧ l'.entries = sampleLayer.entries ∧
      ∀ key lsn, l'.range key lsn = sampleLayer.range key lsn :=
  ⟨sampleLayer_storable, (layer_round_trip sampleLayer sampleLayer_storable).1⟩

end AethelDB.Pageserver
