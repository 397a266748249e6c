import LocalTables.Layout.Extent
import Mathlib.Algebra.GroupWithZero.Nat

/-! What a table file holds besides column data: the errors the engine reports (`error.rs`), the
schema, the header and the meta pages (`layout/header.rs`), and the manifest
(`layout/manifest.rs`). Counters and offsets are `u64` in the source and naturals here; an encoder
may refuse a value that does not fit its field. -/

namespace LocalTables

/-- The failures the storage engine reports (`error.rs`). `overflow` stands for an addition that
leaves `u64`, which aborts a checked build. -/
inductive Error where
  | io (message : String)
  | arrow (message : String)
  | badMagic (message : String)
  | checksum (region : String) (expected found : Nat)
  | corrupt (message : String)
  | schemaMismatch (message : String)
  | unsupported (message : String)
  | invalidArgument (message : String)
  | overflow
  deriving DecidableEq, Repr

abbrev SegmentId := Nat
abbrev Lsn := Nat

/-- One column of an Arrow schema. -/
structure Field (τ : Type) where
  name : String
  dataType : τ
  nullable : Bool
  deriving DecidableEq, Repr

structure Schema (τ : Type) where
  fields : List (Field τ)
  metadata : List (String × String)
  deriving DecidableEq, Repr

/-- Position of the column with this name. -/
def Schema.indexOf {τ : Type} (schema : Schema τ) (name : String) : Option Nat :=
  schema.fields.findIdx? fun field => field.name == name

/-- File magic. Spells `DFLT` followed by a format tag. -/
def magic : Nat := 0x01000000544c4644

def formatVersion : Nat := 3

/-- Which engine wrote this file. -/
inductive TableKind where
  | columnar
  deriving DecidableEq, Repr

/-- Fixed description of the table, written once at creation. -/
structure FileHeader where
  magic : Nat
  formatVersion : Nat
  tableKind : TableKind
  tableUuid : List UInt8
  schema : Extent
  schemaFingerprint : Nat
  segmentAlign : Nat
  bufferAlign : Nat
  flags : Nat
  deriving DecidableEq, Repr

namespace FileHeader

def new (kind : TableKind) (uuid : List UInt8) (schema : Extent) (fingerprint : Nat) : FileHeader where
  magic := LocalTables.magic
  formatVersion := LocalTables.formatVersion
  tableKind := kind
  tableUuid := uuid
  schema := schema
  schemaFingerprint := fingerprint
  segmentAlign := LocalTables.segmentAlign
  bufferAlign := LocalTables.bufferAlign
  flags := 0

/-- Reject files this build cannot read. -/
def validate (header : FileHeader) (expectKind : TableKind) : Except Error Unit :=
  if header.magic ≠ LocalTables.magic then
    .error (.badMagic s!"header magic {header.magic} does not match {LocalTables.magic}")
  else if header.formatVersion ≠ LocalTables.formatVersion then
    .error (.unsupported
      s!"format version {header.formatVersion}, this build reads version {LocalTables.formatVersion}")
  else if header.tableKind ≠ expectKind then
    .error (.badMagic "file holds another kind of table")
  else if header.bufferAlign ≠ LocalTables.bufferAlign then
    .error (.unsupported
      s!"file uses {header.bufferAlign}-byte buffer alignment, this build uses {LocalTables.bufferAlign}")
  else .ok ()

theorem validate_new (kind : TableKind) (uuid : List UInt8) (schema : Extent) (fingerprint : Nat) :
    (new kind uuid schema fingerprint).validate kind = .ok () := by
  simp [validate, new]

end FileHeader

/-- One commit slot. Two of these alternate at fixed offsets in the file. -/
structure MetaPage where
  txnId : Nat
  manifest : Extent
  checkpointLsn : Lsn
  nextLsn : Lsn
  fileLen : Nat
  deriving DecidableEq, Repr

/-- Which of the two slots a commit writes to. -/
inductive MetaSlot where
  | a
  | b
  deriving DecidableEq, Repr

namespace MetaSlot

def offset : MetaSlot → Nat
  | a => metaAOffset
  | b => metaBOffset

def other : MetaSlot → MetaSlot
  | a => b
  | b => a

/-- How error messages show the slot. -/
def name : MetaSlot → String
  | a => "A"
  | b => "B"

@[simp] theorem other_other (slot : MetaSlot) : slot.other.other = slot := by cases slot <;> rfl

/-- The page a slot occupies. -/
def page (slot : MetaSlot) : Extent := ⟨slot.offset, metaPageSize⟩

theorem page_stop_le (slot : MetaSlot) : slot.page.stop ≤ dataStart := by cases slot <;> decide

theorem page_apart_other (slot : MetaSlot) : slot.page.Apart slot.other.page := by
  cases slot <;> decide

end MetaSlot

/-- The region the header occupies. -/
def headerExtent : Extent := ⟨0, headerSize⟩

theorem headerExtent_apart_page (slot : MetaSlot) : headerExtent.Apart slot.page := by
  cases slot <;> decide

/-- One immutable columnar segment. -/
structure SegmentEntry where
  segmentId : SegmentId
  data : Extent
  metaFrame : Extent
  rowCount : Nat
  deletedCount : Nat
  deletes : Option Extent
  deriving DecidableEq, Repr

/-- The extents a segment entry points at: its data, and its delete vector if it has one. -/
def SegmentEntry.refs (entry : SegmentEntry) : List Extent := entry.data :: entry.deletes.toList

/-- A byte range no live commit references any more, with the commit that gave it up. -/
structure FreeExtent where
  extent : Extent
  freedTxn : Nat
  deriving DecidableEq, Repr

/-- The complete state of a table at one commit. -/
structure Manifest where
  txnId : Nat
  checkpointLsn : Lsn
  nextSegmentId : SegmentId
  nextSeqno : Nat
  schema : Extent
  segments : List SegmentEntry
  freeExtents : List FreeExtent
  fileLen : Nat
  deriving DecidableEq, Repr

namespace Manifest

/-- The manifest of a table that holds no data yet. -/
def empty (fileLen : Nat) : Manifest where
  txnId := 0
  checkpointLsn := 0
  nextSegmentId := 0
  nextSeqno := 0
  schema := Extent.empty
  segments := []
  freeExtents := []
  fileLen := fileLen

def totalRows (manifest : Manifest) : Nat := (manifest.segments.map (·.rowCount)).sum

def segment (manifest : Manifest) (id : SegmentId) : Option SegmentEntry :=
  manifest.segments.find? fun entry => entry.segmentId == id

/-- Change the first entry with this id, as a write through `segment_mut` does. -/
def modifySegment (manifest : Manifest) (id : SegmentId) (change : SegmentEntry → SegmentEntry) :
    Manifest :=
  { manifest with
    segments := match manifest.segments.findIdx? (fun entry => entry.segmentId == id) with
      | none => manifest.segments
      | some index => manifest.segments.modify index change }

/-- Mark `extent` as garbage as of this manifest's txn. -/
def free (manifest : Manifest) (extent : Extent) : Manifest :=
  if extent.isEmpty then manifest
  else { manifest with freeExtents := manifest.freeExtents ++ [⟨extent, manifest.txnId⟩] }

/-- The extents of the free list. -/
def freed (manifest : Manifest) : List Extent := manifest.freeExtents.map (·.extent)

/-- Every segment and delete-vector extent the manifest points at. -/
def refs (manifest : Manifest) : List Extent := manifest.segments.flatMap SegmentEntry.refs

end Manifest

end LocalTables
