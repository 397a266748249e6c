import LocalTables.Io.Media
import LocalTables.TableFile.Allocate

/-! The file layer of `table_file.rs`: the header, the two meta page slots, the manifest and the
commit protocol. A commit appends the new manifest and syncs, then overwrites the slot that holds
the older txn and syncs again. -/

namespace LocalTables

variable {τ ν : Type}

/-- The winning meta page and the manifest it points at. -/
structure Committed where
  metaPage : MetaPage
  slot : MetaSlot
  manifest : Manifest
  deriving DecidableEq, Repr

/-- A table file opened for writing. -/
structure TableFile (M : Media τ ν) where
  io : FileIo M
  schema : Schema τ
  header : FileHeader
  /-- The slot the next commit overwrites: the one holding the older txn. -/
  nextSlot : MetaSlot
  /-- The manifest `nextSlot` points at. The next commit frees it. -/
  nextSlotManifest : Extent
  committed : Committed

variable {M : Media τ ν}

section Read

variable (file : M.File)

/-- The error of a frame that carries another region's tag. -/
def wrongTag : Error := .badMagic "the frame belongs to another region"

def readHeader : Except Error FileHeader := do
  match ← M.read file headerExtent .header with
  | .header header => return header
  | _ => throw wrongTag

def readSchema (extent : Extent) : Except Error (Schema τ) := do
  match ← M.read file extent .schema with
  | .schema schema => return schema
  | _ => throw wrongTag

/-- Read one meta slot. A torn or absent slot reports `none`, not an error. -/
def readMeta (slot : MetaSlot) : Option MetaPage :=
  match M.read file slot.page .metaPage with
  | .ok (.metaPage page) => some page
  | _ => none

/-- Read the manifest a meta page points at. -/
def readManifest (page : MetaPage) : Except Error Manifest := do
  match ← M.read file page.manifest .manifest with
  | .manifest manifest => return manifest
  | _ => throw wrongTag

/-- The slots that read back, newest first. -/
def readSlots : List (MetaSlot × MetaPage) :=
  ([MetaSlot.a, MetaSlot.b].filterMap fun slot => (readMeta file slot).map fun page => (slot, page)).insertionSort
    fun left right => right.2.txnId ≤ left.2.txnId

/-- The manifest extent the slot that is not at `index` points at, or nothing. -/
def loserManifest (slots : List (MetaSlot × MetaPage)) (index : Nat) : Extent :=
  ((slots.zipIdx.find? fun entry => entry.2 ≠ index).map fun entry => entry.1.2.manifest).getD Extent.empty

/-- The first slot whose manifest reads back with the txn the slot claims. -/
def selectCommitted (slots : List (MetaSlot × MetaPage)) :
    List ((MetaSlot × MetaPage) × Nat) → Option Error → Except Error (Committed × Extent)
  | [], lastErr => .error (lastErr.getD (.corrupt "no meta slot points at a readable manifest"))
  | ((slot, page), index) :: rest, _ =>
      match readManifest file page with
      | .error e => selectCommitted slots rest (some e)
      | .ok manifest =>
          if manifest.txnId ≠ page.txnId then
            selectCommitted slots rest (some (.corrupt
              s!"meta slot {slot.name} claims txn {page.txnId} but its manifest holds txn {manifest.txnId}"))
          else .ok (⟨page, slot, manifest⟩, loserManifest slots index)

/-- Pick the newest slot whose manifest reads back cleanly, and the manifest extent of the other. -/
def readCommitted : Except Error (Committed × Extent) :=
  let slots := readSlots file
  if slots.isEmpty then
    .error (.corrupt "both meta pages are unreadable; the table cannot be recovered")
  else selectCommitted file slots slots.zipIdx none

end Read

/-- The schema blob in force: the header's, until a manifest names one. -/
def schemaExtent (header : FileHeader) (manifest : Manifest) : Extent :=
  if manifest.schema.isEmpty then header.schema else manifest.schema

/-- Slack reserved around a manifest record. -/
def manifestSlack : Nat := 256

/-- Serialize a manifest, place it at the end of the file, and write it. The slot is sized before
`file_len` is filled in, so the record and the value inside it agree. -/
def writeManifest (io : FileIo M) (manifest : Manifest) : Except Error (Extent × Manifest × FileIo M) := do
  let start := alignUp (max manifest.fileLen io.len) bufferAlign
  let probe ← M.size (.manifest manifest)
  let slot := alignUp (probe + manifestSlack) bufferAlign
  let manifest := { manifest with fileLen := start + slot }
  let size ← M.size (.manifest manifest)
  if size > slot then
    throw (.corrupt s!"manifest grew to {size} bytes, past its {slot}-byte slot")
  else
    let io ← (io.ensureLen (start + slot)).writeAt start (.manifest manifest)
    return (⟨start, slot⟩, manifest, io)

def writeMeta (io : FileIo M) (slot : MetaSlot) (page : MetaPage) : Except Error (FileIo M) :=
  io.writeAt slot.offset (.metaPage page)

/-- Write a blob at a freshly allocated extent and return it. -/
def writeAllocated (io : FileIo M) (manifest : Manifest) (blob : Blob τ ν) (align minActiveTxn : Nat) :
    Except Error (Extent × Manifest × FileIo M) := do
  let len ← M.size blob
  let (extent, manifest) := allocate manifest len align minActiveTxn
  if extent.isEmpty then
    return (extent, manifest, io)
  else
    let io ← (io.ensureLen extent.stop).writeAt extent.offset blob
    return (extent, manifest, io)

namespace TableFile

/-- Create a table file. Fails when the path already exists. `newTableUuid` is the identity derived
from the path, the time and the schema extent. -/
def create (M : Media τ ν) (kind : TableKind) (schema : Schema τ) (fingerprint : Schema τ → Nat)
    (newTableUuid : Extent → List UInt8) (existing : Option M.File) : Except Error (TableFile M) := do
  if existing.isSome then
    throw (.invalidArgument "the path already exists")
  else
    -- reserve the header and both meta pages before anything is appended
    let io := (FileIo.mk M.create []).setLen dataStart
    let (schemaAt, io) ← io.append (.schema schema)
    let header := FileHeader.new kind (newTableUuid schemaAt) schemaAt (fingerprint schema)
    let io ← io.writeAt 0 (.header header)
    -- both slots are seeded with a complete commit
    let seed := { Manifest.empty (alignUp io.len segmentAlign) with schema := schemaAt }
    let (seedExtent, seed, io) ← writeManifest io seed
    let (extent, manifest, io) ← writeManifest io { seed with txnId := 1 }
    let io := io.syncData
    let page : MetaPage := {
      txnId := 1
      manifest := extent
      checkpointLsn := 0
      nextLsn := 1
      fileLen := io.len }
    let io ← writeMeta io .b { page with txnId := 0, manifest := seedExtent }
    let io ← writeMeta io .a page
    let io := io.syncData
    return {
      io := io
      schema := schema
      header := header
      nextSlot := .b
      nextSlotManifest := seedExtent
      committed := ⟨page, .a, manifest⟩ }

/-- Open an existing table file and recover the newest complete commit (`open` in the source). -/
def openFile (file : M.File) (kind : TableKind) : Except Error (TableFile M) := do
  let header ← readHeader file
  header.validate kind
  let (committed, nextSlotManifest) ← readCommitted file
  let schema ← readSchema file (schemaExtent header committed.manifest)
  return {
    io := ⟨file, []⟩
    schema := schema
    header := header
    nextSlot := committed.slot.other
    nextSlotManifest := nextSlotManifest
    committed := committed }

variable (t : TableFile M)

/-- Store a schema and return where it landed. A schema blob appends and never frees. -/
def writeSchema (schema : Schema τ) : Except Error (Extent × TableFile M) := do
  let (extent, io) ← t.io.append (.schema schema)
  return (extent, { t with io := io })

def setSchema (schema : Schema τ) : TableFile M := { t with schema := schema }

/-- What `commit` writes: the caller's manifest under the next txn, with the manifest of the slot it
is about to overwrite freed. -/
def stamped (manifest : Manifest) : Manifest :=
  Manifest.free { manifest with txnId := t.committed.metaPage.txnId + 1 } t.nextSlotManifest

/-- The meta page `commit` flips the older slot to. -/
def nextPage (extent : Extent) (manifest : Manifest) (fileLen : Nat) : MetaPage where
  txnId := manifest.txnId
  manifest := extent
  checkpointLsn := manifest.checkpointLsn
  nextLsn := max t.committed.metaPage.nextLsn (manifest.checkpointLsn + 1)
  fileLen := fileLen

/-- Publish `manifest` as the newest commit. -/
def commit (manifest : Manifest) : Except Error (TableFile M) := do
  let (extent, manifest, io) ← writeManifest t.io (t.stamped manifest)
  -- every byte the new meta page will point at is on disk
  let io := io.syncData
  let page := t.nextPage extent manifest io.len
  let io ← writeMeta io t.nextSlot page
  let io := io.syncData
  return { t with
    io := io
    nextSlotManifest := t.committed.metaPage.manifest
    committed := ⟨page, t.nextSlot, manifest⟩
    nextSlot := t.nextSlot.other }

end TableFile

end LocalTables
