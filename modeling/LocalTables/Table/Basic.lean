import LocalTables.Columnar.Groups
import LocalTables.Columnar.Memtable
import LocalTables.TableFile.Ledger
import LocalTables.Wal.Pair

/-! The columnar table (`columnar/table/`): the writer's state, the snapshot readers see, and the
operations. Each operation runs under the writer mutex and is one step here, except that a flush is cut
into the stages it passes through and a compaction into its read and its locked half. -/

namespace LocalTables

variable {τ ν : Type}

/-- The schema in force, with everything derived from it. -/
structure TableSchema (τ : Type) where
  schema : Schema τ
  /-- Fingerprint of the first `n` columns, indexed by `n` (`SchemaLayout`). -/
  layout : List Nat
  clusterColumns : List Nat
  deriving DecidableEq

/-- The table as it stood at one commit. -/
structure Snapshot (τ ν : Type) where
  txnId : Nat
  schema : Schema τ
  layout : List Nat
  manifest : Manifest
  deletes : SegmentId → Option (Finset Nat)
  memtable : List (RecordBatch τ ν)

/-- Everything only the writer touches. -/
structure Writer (M : Media τ ν) where
  file : TableFile M
  wal : WalPair
  memtable : Memtable τ ν
  /-- Deleted rows per segment, and the authority on them. -/
  deletes : SegmentId → Option (Finset Nat)
  /-- Segments whose deletions are in the log but not yet in the file. -/
  dirtyDeletes : List SegmentId
  nextLsn : Lsn

/-- An open table: the writer, the snapshot last published, and the ones readers hold. -/
structure Table (M : Media τ ν) where
  writer : Writer M
  current : Snapshot τ ν
  pins : List (Snapshot τ ν)
  schema : TableSchema τ

variable {M : Media τ ν}

section Schema

variable (env : Env τ ν)

/-- The fingerprint of every prefix of the fields, names replaced by positions. -/
def schemaLayout (schema : Schema τ) : List Nat :=
  (List.range (schema.fields.length + 1)).map fun count =>
    env.schemaHash ((schema.fields.take count).zipIdx.map fun (field, index) => { field with name := toString index })

/-- The fingerprint a segment written against the whole schema carries. -/
def layoutCurrent (layout : List Nat) : Nat := layout.getLast?.getD 0

/-- Whether a segment of `columns` columns stamped `fingerprint` can be read under the layout. -/
def layoutAccepts (layout : List Nat) (columns fingerprint : Nat) : Bool := layout[columns]? == some fingerprint

def TableSchema.new (schema : Schema τ) : Except Error (TableSchema τ) := do
  let clusterColumns ← resolve env schema env.options.clusterBy
  return ⟨schema, schemaLayout env schema, clusterColumns⟩

end Schema

namespace Snapshot

variable (s : Snapshot τ ν)

/-- Rows still readable in one segment. -/
def liveRowsIn (entry : SegmentEntry) : Nat :=
  entry.rowCount - ((s.deletes entry.segmentId).map fun rows => min rows.card entry.rowCount).getD 0

/-- Rows held in memory but not yet in a segment. -/
def memtableRows : Nat := totalRows s.memtable

/-- Rows a scan of this snapshot returns. -/
def liveRows : Nat := (s.manifest.segments.map s.liveRowsIn).sum + s.memtableRows

/-- Segments with at least one row left to read. -/
def liveSegments : List SegmentEntry := s.manifest.segments.filter fun entry => s.liveRowsIn entry > 0

end Snapshot

section Read

variable (env : Env τ ν) (file : M.File)

/-- The metadata frame of a segment, relative to the segment's start. -/
def SegmentEntry.metaAt (entry : SegmentEntry) : Extent :=
  ⟨entry.metaFrame.offset - entry.data.offset, entry.metaFrame.len⟩

/-- Open a segment under a schema: read it, and check that its columns are a prefix of the schema's. -/
def segmentReader (entry : SegmentEntry) (layout : List Nat) : Except Error (SegmentData ν) := do
  match ← M.read file entry.data (.segment entry.metaAt) with
  | .segment data =>
      if layoutAccepts layout data.columns data.schemaFingerprint then
        return data
      else
        throw (.schemaMismatch
          s!"a {data.columns}-column segment stamped {data.schemaFingerprint} does not match the schema")
  | _ => throw wrongTag

/-- Decode a range of rows. A column the segment predates reads as null. -/
def readRows (fields : List (Field τ)) (data : SegmentData ν) (start len : Nat) : RecordBatch τ ν :=
  ⟨fields, ((data.rows.drop start).take len).map fun row =>
    row ++ List.replicate (fields.length - data.columns) env.null⟩

/-- Keep the rows of a range that the segment's delete vector does not name. -/
def filterRange (deleted : Finset Nat) (start : Nat) (page : RecordBatch τ ν) : RecordBatch τ ν :=
  ⟨page.fields, (page.rows.zipIdx.filter fun entry => start + entry.2 ∉ deleted).map Prod.fst⟩

/-- Read a segment under a given schema and layout, with deleted rows removed. -/
def readSegmentAs (s : Snapshot τ ν) (entry : SegmentEntry) (fields : List (Field τ)) (layout : List Nat) :
    Except Error (List (RecordBatch τ ν)) := do
  let data ← segmentReader file entry layout
  let rows := data.rows.length
  let ranges := splitAtBlocks [(0, rows)] data.blockRows
  return ranges.flatMap fun (start, len) =>
    let page := readRows env fields data start len
    let page := match s.deletes entry.segmentId with
      | none => page
      | some deleted => if deleted = ∅ then page else filterRange deleted start page
    if page.numRows = 0 then [] else sliceBatches page env.options.scanBatchRows

/-- Read one segment as batches, under the schema the snapshot was taken under. -/
def readSegment (s : Snapshot τ ν) (entry : SegmentEntry) : Except Error (List (RecordBatch τ ν)) :=
  readSegmentAs env file s entry s.schema.fields s.layout

/-- Read the whole table, segments first and then the rows still held in memory. -/
def scanTable (s : Snapshot τ ν) : Except Error (List (RecordBatch τ ν)) := do
  let segments ← s.liveSegments.mapM fun entry => readSegment env file s entry
  return segments.flatten ++ s.memtable.flatMap fun batch => sliceBatches batch env.options.scanBatchRows

/-- Read a segment's deletions off disk. -/
def loadDeletes (entry : SegmentEntry) : Except Error (Finset Nat) :=
  match entry.deletes with
  | none => .ok ∅
  | some extent => do
      match ← M.read file extent .deletes with
      | .deletes rows => return rows
      | _ => throw wrongTag

end Read

namespace Writer

variable (w : Writer M)

/-- Drop a segment from the in-memory deletions. -/
def forget (id : SegmentId) : Writer M :=
  { w with
    deletes := Function.update w.deletes id none
    dirtyDeletes := w.dirtyDeletes.erase id }

def forgetAll (ids : List SegmentId) : Writer M := ids.foldl Writer.forget w

/-- Record a segment's deletions. -/
def mark (id : SegmentId) (rows : Finset Nat) : Writer M :=
  { w with
    deletes := Function.update w.deletes id (some rows)
    dirtyDeletes := w.dirtyDeletes.insert id }

/-- The snapshot readers should see for the writer's current state. -/
def snapshot (current : TableSchema τ) : Snapshot τ ν where
  txnId := w.file.committed.metaPage.txnId
  schema := w.file.schema
  layout := current.layout
  manifest := w.file.committed.manifest
  deletes id := (w.deletes id).filter fun rows => rows ≠ ∅
  memtable := w.memtable.batches

end Writer

/-- The deletions a statement will actually make. -/
structure PlannedDeletes where
  /-- The new bitmap for each segment that changes. -/
  segments : List (SegmentId × Finset Nat)
  /-- Memtable rows that are not already deleted. -/
  memtable : List Nat
  /-- Rows this removes that were not already gone. -/
  count : Nat

namespace PlannedDeletes

variable (planned : PlannedDeletes)

def isEmpty : Bool := planned.segments.isEmpty && planned.memtable.isEmpty

/-- The segment bitmaps, in the shape a log record carries them. -/
def loggedSegments : List SegmentDeletes := planned.segments.map fun (id, rows) => ⟨id, rows⟩

end PlannedDeletes

/-- Plan the deletions in one segment. -/
def planSegment (w : Writer M) (planned : PlannedDeletes) (deletion : SegmentId × List Nat) :
    Except Error PlannedDeletes :=
  match w.file.committed.manifest.segment deletion.1 with
  | none => .error (.invalidArgument s!"segment {deletion.1} is not in this table")
  | some entry =>
      let before := (w.deletes deletion.1).getD ∅
      let rows := before ∪ (deletion.2.filter fun position => position < entry.rowCount).toFinset
      if rows.card > before.card then
        .ok { planned with
          count := planned.count + (rows.card - before.card)
          segments := planned.segments ++ [(deletion.1, rows)] }
      else .ok planned

/-- Work out which rows a deletion would actually remove. -/
def planDeletes (w : Writer M) (segmentDeletions : List (SegmentId × List Nat)) (memtableSeqnos : List Nat) :
    Except Error PlannedDeletes := do
  let planned ← segmentDeletions.foldlM (planSegment w) ⟨[], [], 0⟩
  return { planned with memtable := memtableSeqnos.filter fun seqno => ¬w.memtable.isDeleted seqno }

/-- Apply planned deletions to the writer's in-memory state. -/
def applyDeletes (w : Writer M) (planned : PlannedDeletes) : Nat × Writer M :=
  let w := planned.segments.foldl (fun w (id, rows) => w.mark id rows) w
  let (deleted, memtable) := w.memtable.delete planned.memtable
  (planned.count + deleted, { w with memtable := memtable })

section Replay

variable (env : Env τ ν)

/-- The shape a batch is logged in. -/
def encodeBatch (batch : RecordBatch τ ν) : BatchData τ ν := ⟨batch.fields.map Field.dataType, batch.rows⟩

/-- Restore a logged batch to Arrow. -/
def decodeBatch (data : BatchData τ ν) (schema : Schema τ) [DecidableEq τ] : Except Error (RecordBatch τ ν) := do
  if data.columns.length ≠ schema.fields.length then
    throw (.corrupt
      s!"logged batch holds {data.columns.length} columns, the schema has {schema.fields.length}")
  else if data.columns = schema.fields.map Field.dataType then
    return ⟨schema.fields, data.rows⟩
  else
    let rows ← env.misread (schema.fields.map Field.dataType) data
    return ⟨schema.fields, rows⟩

/-- Put logged segment deletions back into the writer's in-memory state. -/
def applyLoggedDeletes (w : Writer M) (segments : List SegmentDeletes) : Writer M :=
  segments.foldl (fun w logged =>
    -- a segment dropped since the delete was logged has nothing to mark
    match w.file.committed.manifest.segment logged.segmentId with
    | none => w
    | some _ => w.mark logged.segmentId logged.rows) w

/-- Replay one record. -/
def replayRecord [DecidableEq τ] (w : Writer M) : WalRecord τ ν → Except Error (Writer M)
  | .insert _ baseSeqno batch => do
      let batch ← decodeBatch env batch w.memtable.schema
      return { w with memtable := w.memtable.insertAt env baseSeqno batch }
  | .delete _ segments memtableRows =>
      let w := applyLoggedDeletes w segments
      .ok { w with memtable := (w.memtable.delete memtableRows).2 }
  | .update _ segments memtableRows baseSeqno batch => do
      let w := applyLoggedDeletes w segments
      let w := { w with memtable := (w.memtable.delete memtableRows).2 }
      let batch ← decodeBatch env batch w.memtable.schema
      return { w with memtable := w.memtable.insertAt env baseSeqno batch }

/-- Put the log's records back, in order, skipping what a flush already folded into the file. -/
def replay [DecidableEq τ] (w : Writer M) (checkpointLsn : Lsn) : Except Error (Writer M) := do
  let (records, wal) ← w.wal.recover env
  let records := records.filter fun record => record.lsn > checkpointLsn
  let w ← records.foldlM (replayRecord env) { w with wal := wal }
  return { w with nextLsn := records.foldl (fun highest record => max highest record.lsn) checkpointLsn + 1 }

end Replay

namespace Table

variable (env : Env τ ν) (t : Table M)

/-- The oldest commit any reader is still pinned to. The current snapshot is always held. -/
def minActiveTxn : Nat := t.pins.foldl (fun oldest s => min oldest s.txnId) t.current.txnId

/-- A reader takes the current snapshot. -/
def pin : Table M := { t with pins := t.current :: t.pins }

/-- A reader drops the snapshot it holds at `index`. -/
def unpin (index : Nat) : Table M := { t with pins := t.pins.eraseIdx index }

/-- Swap in a snapshot of the writer's current state. -/
def publish : Table M := { t with current := t.writer.snapshot t.schema }

def withWriter (w : Writer M) : Table M := { t with writer := w }

/-- True when the memtable or the log has grown past its limit. -/
def shouldFlush : Bool :=
  t.writer.memtable.bytes ≥ env.options.memtableMaxBytes || t.writer.wal.activeLen ≥ env.options.walMaxBytes

/-- Publish a manifest and the snapshot readers will see next. -/
def commit (manifest : Manifest) : Except Error (Table M) := do
  let file ← t.writer.file.commit manifest
  return publish { t with writer := { t.writer with file := file } }

/-- The records of an insert and the batches they put in the memtable: one for each batch with rows. -/
def planInserts (lsn seqno : Nat) :
    List (RecordBatch τ ν) → List (WalRecord τ ν) × List (Nat × RecordBatch τ ν)
  | [] => ([], [])
  | batch :: batches =>
      if batch.numRows = 0 then planInserts lsn seqno batches
      else
        let (records, planned) := planInserts (lsn + 1) (seqno + batch.numRows) batches
        (.insert lsn seqno (encodeBatch batch) :: records, (seqno, batch) :: planned)

/-- A batch must have the fields of the table's schema. -/
def checkFields [DecidableEq τ] (batches : List (RecordBatch τ ν)) : Except Error Unit :=
  if batches.all fun batch => batch.fields = t.schema.schema.fields then .ok ()
  else .error (.schemaMismatch "a batch does not have the table's schema")

/-- The part of an insert that holds the writer lock. -/
def appendRows (batches : List (RecordBatch τ ν)) : Except Error (Table M) := do
  let w := t.writer
  let (records, planned) := planInserts w.nextLsn w.memtable.nextSeqno batches
  let frames ← records.mapM (encodeRecord env)
  let wal ← w.wal.appendGroup frames
  -- only now are the rows durable, so only now do they become visible
  let memtable := planned.foldl (fun memtable (seqno, batch) => memtable.insertAt env seqno batch) w.memtable
  return publish { t with writer := { w with wal := wal, memtable := memtable, nextLsn := w.nextLsn + records.length } }

/-- Append rows: to the log, then to the memtable. -/
def insertLocked [DecidableEq τ] (batches : List (RecordBatch τ ν)) : Except Error (Nat × Table M) := do
  let rows := totalRows batches
  if rows = 0 then
    return (0, t)
  else
    t.checkFields batches
    let t ← t.appendRows env batches
    return (rows, t)

/-- Delete rows in segments and in the memtable, as one durable record. -/
def delete (segmentDeletions : List (SegmentId × List Nat)) (memtableSeqnos : List Nat) :
    Except Error (Nat × Table M) := do
  if segmentDeletions.isEmpty ∧ memtableSeqnos.isEmpty then
    return (0, t)
  else
    let w := t.writer
    let planned ← planDeletes w segmentDeletions memtableSeqnos
    if planned.isEmpty then
      return (0, t)
    else
      let frame ← encodeRecord env (.delete w.nextLsn planned.loggedSegments planned.memtable)
      let wal ← w.wal.appendGroup [frame]
      let (deleted, w) := applyDeletes { w with wal := wal, nextLsn := w.nextLsn + 1 } planned
      return (deleted, publish { t with writer := w })

/-- Join batches under a schema (Arrow's `concat_batches`): their first columns must have its types, and
their own names are not looked at. -/
def concatBatches [DecidableEq τ] (schema : Schema τ) (batches : List (RecordBatch τ ν)) :
    Except Error (RecordBatch τ ν) :=
  let width := schema.fields.length
  if batches.all fun batch => (batch.fields.take width).map Field.dataType = schema.fields.map Field.dataType then
    .ok ⟨schema.fields, (rowsOf batches).map fun row => row.take width⟩
  else .error (.arrow "the columns of the batches do not have the types of the schema")

/-- The one batch an update logs. -/
def mergeReplacements [DecidableEq τ] (replacements : List (RecordBatch τ ν)) :
    Except Error (Option (RecordBatch τ ν)) :=
  match replacements with
  | [] => .ok none
  | [batch] => .ok (some batch)
  | _ => do
      let batch ← concatBatches t.schema.schema replacements
      return some batch

/-- The part of an update that holds the writer lock. -/
def replaceRows [DecidableEq τ] (segmentDeletions : List (SegmentId × List Nat)) (memtableSeqnos : List Nat)
    (replacements : List (RecordBatch τ ν)) : Except Error (Nat × Table M) := do
  let replacementRows := totalRows replacements
  let w := t.writer
  let planned ← planDeletes w segmentDeletions memtableSeqnos
  if planned.isEmpty ∧ replacementRows = 0 then
    return (0, t)
  else
    let merged ← t.mergeReplacements replacements
    let baseSeqno := w.memtable.nextSeqno
    let logged := encodeBatch (merged.getD ⟨t.schema.schema.fields, []⟩)
    let frame ← encodeRecord env
      (.update w.nextLsn planned.loggedSegments planned.memtable baseSeqno logged)
    let wal ← w.wal.appendGroup [frame]
    -- delete first: the replacements must not be caught by the deletion that made room for them
    let (deleted, w) := applyDeletes { w with wal := wal, nextLsn := w.nextLsn + 1 } planned
    let memtable := match merged with
      | some batch => w.memtable.insertAt env baseSeqno batch
      | none => w.memtable
    return (max deleted replacementRows, publish { t with writer := { w with memtable := memtable } })

/-- Replace rows: delete the ones named, and append their replacements, in one record. -/
def updateLocked [DecidableEq τ] (segmentDeletions : List (SegmentId × List Nat)) (memtableSeqnos : List Nat)
    (replacements : List (RecordBatch τ ν)) : Except Error (Nat × Table M) := do
  let replacementRows := totalRows replacements
  if segmentDeletions.isEmpty ∧ memtableSeqnos.isEmpty ∧ replacementRows = 0 then
    return (0, t)
  else
    t.checkFields replacements
    t.replaceRows env segmentDeletions memtableSeqnos replacements

/-- Serialize batches into one segment (`build_segment`). -/
def buildSegment [DecidableEq τ] (segmentId : SegmentId) (current : TableSchema τ)
    (batches : List (RecordBatch τ ν)) : Except Error (SegmentData ν) :=
  let fields := current.schema.fields
  if batches.all fun batch => batch.fields = fields then
    let rows := rowsOf batches
    let blockRows := env.options.compressionBlockRows
    .ok {
      segmentId := segmentId
      schemaFingerprint := layoutCurrent current.layout
      columns := fields.length
      rows := rows
      blockRows := if blockRows > 0 ∧ rows.length > blockRows ∧ fields.any fun field => env.worthBlocking field.dataType
        then blockRows else 0 }
  else .error (.schemaMismatch "a batch does not have the table's schema")

/-- Build one segment from these batches and record it in the manifest. -/
def writeSegment [DecidableEq τ] (current : TableSchema τ) (minActive : Nat) (pending : Pending M)
    (batches : List (RecordBatch τ ν)) : Except Error (Pending M) := do
  if totalRows batches = 0 then
    return pending
  else
    let built ← buildSegment env pending.manifest.nextSegmentId current batches
    let (data, manifest, io) ← writeAllocated pending.io pending.manifest (.segment built) segmentAlign minActive
    return ⟨io, manifest.addSegment data
      ⟨data.offset + (M.metaExtent built).offset, (M.metaExtent built).len⟩ built.rows.length⟩

/-- Write the bitmap of one segment, if it still has one and is still there. -/
def writeBitmap (deletes : SegmentId → Option (Finset Nat)) (minActive : Nat) (pending : Pending M)
    (id : SegmentId) : Except Error (Pending M) :=
  match deletes id with
  | none => .ok pending
  | some rows =>
      match pending.manifest.segment id with
      | none => .ok pending
      | some entry => do
          let (extent, manifest, io) ← writeAllocated pending.io pending.manifest (.deletes rows) bufferAlign minActive
          return ⟨io, manifest.replaceDeletes id entry.deletes extent rows.card⟩

/-- A flush that has frozen the memtable and drained the dirty segments. -/
structure Frozen (τ ν : Type) where
  memtable : FrozenMemtable τ ν
  dirty : List SegmentId

/-- The first stage of a flush. -/
def freezeStage : Frozen τ ν × Table M :=
  let (frozen, memtable) := t.writer.memtable.freeze
  (⟨frozen, env.drain t.writer.dirtyDeletes⟩,
    { t with writer := { t.writer with memtable := memtable, dirtyDeletes := [] } })

def Frozen.isEmpty (frozen : Frozen τ ν) : Bool := frozen.memtable.isEmpty && frozen.dirty.isEmpty

/-- The second stage: appends go to the other log from here on. Returns the retired one. -/
def rotateStage : Bool × Table M :=
  let (retired, wal) := t.writer.wal.rotate
  (retired, { t with writer := { t.writer with wal := wal } })

/-- The manifest a flush starts from. -/
def flushManifest (frozen : Frozen τ ν) : Manifest :=
  let manifest := t.writer.file.committed.manifest
  { manifest with
    txnId := t.writer.file.committed.metaPage.txnId + 1
    checkpointLsn := t.writer.nextLsn - 1
    nextSeqno := max frozen.memtable.nextSeqno manifest.nextSeqno }

/-- The row groups a flush writes. -/
def flushGroups (frozen : Frozen τ ν) : Except Error (List (List (RecordBatch τ ν))) :=
  let total := (t.flushManifest frozen).totalRows + frozen.memtable.rows
  rowGroups env frozen.memtable.batches (env.options.rowGroupSizeFor total) t.schema.schema t.schema.clusterColumns

/-- The third stage: segments, then bitmaps, up to the commit. -/
def writeStage [DecidableEq τ] (frozen : Frozen τ ν) : Except Error (Pending M) := do
  let groups ← t.flushGroups env frozen
  let pending ← groups.foldlM (writeSegment env t.schema t.minActiveTxn)
    ⟨t.writer.file.io, t.flushManifest frozen⟩
  frozen.dirty.foldlM (writeBitmap t.writer.deletes t.minActiveTxn) pending

/-- The same table over a file that has been written to. -/
def withIo (io : FileIo M) : Table M :=
  { t with writer := { t.writer with file := { t.writer.file with io := io } } }

/-- The last stage: drop the records of the retired log. -/
def truncateStage (retired : Bool) : Table M :=
  { t with writer := { t.writer with wal := t.writer.wal.truncate retired } }

/-- Write the memtable out as segments and empty the log. -/
def flushLocked [DecidableEq τ] : Except Error (Nat × Table M) := do
  let (frozen, t) := t.freezeStage env
  if frozen.isEmpty then
    return (0, t)
  else
    let (retired, t) := t.rotateStage
    let pending ← t.writeStage env frozen
    let t ← (t.withIo pending.io).commit pending.manifest
    return (frozen.memtable.rows, t.truncateStage retired)

/-- Flush when the memtable or the log has grown past its limit. -/
def flushIfNeeded [DecidableEq τ] : Except Error (Table M) := do
  if t.shouldFlush env then
    let (_, t) ← t.flushLocked env
    return t
  else
    return t

def insert [DecidableEq τ] (batches : List (RecordBatch τ ν)) : Except Error (Nat × Table M) := do
  let (rows, t') ← t.insertLocked env batches
  if rows = 0 then
    return (0, t')
  else
    let t' ← t'.flushIfNeeded env
    return (rows, t')

/-- An update that changed nothing returns before it looks at the limits. -/
def update [DecidableEq τ] (segmentDeletions : List (SegmentId × List Nat)) (memtableSeqnos : List Nat)
    (replacements : List (RecordBatch τ ν)) : Except Error (Nat × Table M) := do
  let (rows, t') ← t.updateLocked env segmentDeletions memtableSeqnos replacements
  if t'.writer.nextLsn = t.writer.nextLsn then
    return (rows, t')
  else
    let t' ← t'.flushIfNeeded env
    return (rows, t')

/-- Delete every row of the named segments, by dropping them from the manifest. -/
def deleteSegments (segmentIds : List SegmentId) : Except Error (Nat × Table M) := do
  let w := t.writer
  let manifest := w.file.beginManifest
  let dropped := manifest.segments.filter fun entry => entry.segmentId ∈ segmentIds
  let deleted := (dropped.map fun entry =>
    entry.rowCount - ((w.deletes entry.segmentId).map fun rows => min rows.card entry.rowCount).getD 0).sum
  -- the in-memory deletions of the named segments go before the commit is decided on
  let t := { t with writer := w.forgetAll (dropped.map SegmentEntry.segmentId) }
  if deleted = 0 then
    return (0, t)
  else
    let t ← t.commit (manifest.retire segmentIds dropped)
    return (deleted, t)

section Open

/-- Load the deletions recorded in the last commit. -/
def loadAllDeletes (file : M.File) (manifest : Manifest) : Except Error (SegmentId → Option (Finset Nat)) :=
  manifest.segments.foldlM (fun deletes entry =>
    match entry.deletes with
    | none => return deletes
    | some _ => do
        let rows ← loadDeletes file entry
        return Function.update deletes entry.segmentId (some rows)) fun _ => none

/-- Open a table over an open file and its logs, replaying whatever the logs still hold. -/
def fromFile [DecidableEq τ] (file : TableFile M) (a b : Option LogFile) : Except Error (Table M) := do
  let schema ← TableSchema.new env file.schema
  let deletes ← loadAllDeletes file.io.file file.committed.manifest
  let wal ← WalPair.openPair a b file.header.tableUuid
  let checkpointLsn := file.committed.metaPage.checkpointLsn
  let writer : Writer M := {
    file := file
    wal := wal
    memtable := Memtable.new file.schema file.committed.manifest.nextSeqno
    deletes := deletes
    dirtyDeletes := []
    nextLsn := checkpointLsn + 1 }
  let writer ← replay env writer checkpointLsn
  let t : Table M := ⟨writer, writer.snapshot schema, [], schema⟩
  t.flushIfNeeded env

def create [DecidableEq τ] (M : Media τ ν) (schema : Schema τ) (fingerprint : Schema τ → Nat)
    (newTableUuid : Extent → List UInt8) (existing : Option M.File) : Except Error (Table M) := do
  let file ← TableFile.create M .columnar schema fingerprint newTableUuid existing
  fromFile env file none none

/-- Open an existing table from its file and its logs (`open` in the source). -/
def openTable [DecidableEq τ] (file : M.File) (a b : Option LogFile) : Except Error (Table M) := do
  let file ← TableFile.openFile file .columnar
  fromFile env file a b

/-- Close the table and open it again, or crash between two operations and open it. -/
def reopen [DecidableEq τ] : Except Error (Table M) :=
  openTable env t.writer.file.io.file (some t.writer.wal.a.disk) (some t.writer.wal.b.disk)

end Open

end Table

end LocalTables
