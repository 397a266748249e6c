import LocalTables.Columnar.Decode
import LocalTables.Columnar.Pages
import LocalTables.Table.Basic

/-! Reading a segment (the reading half of `columnar/segment.rs`): its metadata, the columns it stores, and what lies beside
them. -/

namespace LocalTables

namespace Segment

/-- How a role is written in a message. -/
def BufferRole.debugName : BufferRole → String
  | validity => "Validity"
  | data => "Data"
  | bloom => "Bloom"
  | trigram => "Trigram"
  | pageZones => "PageZones"

/-- Sixteen hexadecimal digits. -/
def hexadecimal (n : Nat) : String := "0x" ++ String.ofList ((Nat.toDigits 16 n).leftpad 16 '0')

/-- What Arrow asks of the columns of a batch before it makes one. -/
def RecordBatch.tryNew (schema : Schema DataType) (columns : List ArrayData) (rowCount : Option Nat) :
    Except Error RecordBatch :=
  if schema.fields.length ≠ columns.length then
    .error (.arrow
      s!"number of columns({columns.length}) must match number of fields({schema.fields.length}) in schema")
  else
    match rowCount.or (columns.head?.map ArrayData.len) with
    | none => .error (.arrow "must either specify a row count or at least one column")
    | some rows =>
        if (columns.zip schema.fields).any fun (column, field) => ¬field.nullable ∧ column.nullCount > 0 then
          .error (.arrow "a column is declared as non-nullable but contains null values")
        else if columns.any fun column => column.len ≠ rows then
          .error (.arrow "all columns in a record batch must have the same length")
        else if columns.map ArrayData.dataType ≠ schema.fields.map Field.dataType then
          .error (.arrow "column types must match schema types")
        else .ok ⟨schema, columns, rows⟩

/-- Some rows of a batch. -/
def RecordBatch.slice (K : Kit) (batch : RecordBatch) (start len : Nat) : RecordBatch :=
  ⟨batch.schema, batch.columns.map fun column => K.slice column start len, len⟩

/-- A segment's bytes, and where the frame of its metadata lies in them. -/
structure SegmentReader where
  bytes : Bytes
  metaOffset : Nat
  metaLen : Nat
  schema : Schema DataType

namespace SegmentReader

section Meta

variable (K : Kit)

/-- The segment's metadata. -/
def segmentMeta (reader : SegmentReader) : Outcome Error SegmentMeta := do
  let stop ← Outcome.add usizeLimit reader.metaOffset reader.metaLen
  let frame ← Outcome.slice reader.bytes reader.metaOffset stop
  let payload ← Outcome.ofExcept (Frame.decode K.checksum frame segmentTag "segment metadata")
  Outcome.ofExcept (K.access payload)

/-- Validate a segment's metadata and keep its bytes for decoding. The metadata is located inside the file. -/
def new (bytes : Bytes) (segmentStart : Nat) (metaAt : Extent) (schema : Schema DataType) (layout : List Nat) :
    Outcome Error SegmentReader :=
  if metaAt.offset < segmentStart then
    .fail (.corrupt s!"segment metadata at {metaAt.offset} sits before the segment start {segmentStart}")
  else do
    let metaOffset := metaAt.offset - segmentStart
    let metaStop ← Outcome.add usizeLimit metaOffset metaAt.len
    if metaStop > bytes.length then
      .fail (.corrupt s!"segment metadata at {metaOffset}..{metaStop} runs past the {bytes.length}-byte segment")
    else do
      let reader : SegmentReader := ⟨bytes, metaOffset, metaAt.len, schema⟩
      -- checked now, so that nothing downstream has to wonder
      let found ← reader.segmentMeta K
      let columns := found.columns.length
      if layoutAccepts layout columns found.schemaFingerprint then return reader
      else
        .fail (.schemaMismatch (s!"a {columns}-column segment stamped {hexadecimal found.schemaFingerprint} does not match " ++
          s!"the first {columns} of this {layout.length - 1}-column schema"))

end Meta

section Columns

variable (K : Kit) (reader : SegmentReader)

def rowCount : Outcome Error Nat := do
  let found ← reader.segmentMeta K
  return found.rowCount

/-- Rows in each block, or zero when no column is stored in blocks. -/
def blockRows : Outcome Error Nat := do
  let found ← reader.segmentMeta K
  return found.blockRows

/-- The row range one page covers, clamped to the segment. -/
def pageRange (page : Nat) : Outcome Error (Option (Nat × Nat)) := do
  let found ← reader.segmentMeta K
  if found.pageRows = 0 then return none
  -- `checked_mul`
  else if page * found.pageRows < usizeLimit then return LocalTables.pageRange found.pageRows found.rowCount page
  else return none

/-- The bytes of a buffer that is not Arrow's, checked against its checksum. -/
def sideBuffer (index : Nat) (role : BufferRole) : Outcome Error (Option Bytes) := do
  let found ← reader.segmentMeta K
  match found.columns[index]? with
  | none => return none
  | some chunk =>
      match chunk.buffer role with
      | none => return none
      | some spec =>
          let start := spec.extent.offset
          let stop := start + spec.extent.len
          -- `checked_add`
          if stop ≥ usizeLimit then .fail (.corrupt s!"a {role.debugName} buffer's extent overflows")
          else if stop > reader.bytes.length then
            .fail (.corrupt
              s!"a {role.debugName} buffer at {start}..{stop} runs past the {reader.bytes.length}-byte segment")
          else do
            let stored ← Outcome.slice reader.bytes start stop
            if K.checksum stored ≠ spec.checksum then
              .fail (.corrupt s!"a {role.debugName} buffer failed its checksum")
            else return some stored

def filter (index : Nat) (role : BufferRole) : Outcome Error (Option BloomFilter) := do
  match ← reader.sideBuffer K index role with
  | none => return none
  | some stored => do
      let filter ← Outcome.ofExcept (BloomFilter.fromBytes stored)
      return some filter

/-- The membership filter for one column, when the segment stored one. -/
def bloomFilter (index : Nat) : Outcome Error (Option BloomFilter) := reader.filter K index .bloom

/-- The trigram filter for one column, when the segment stored one. -/
def trigramFilter (index : Nat) : Outcome Error (Option BloomFilter) := reader.filter K index .trigram

/-- Bounds for each page of one column, when the segment stored them. -/
def pageZones (index : Nat) : Outcome Error (Option (List ZoneMap)) := do
  match ← reader.sideBuffer K index .pageZones with
  | none => return none
  | some stored => do
      let zones ← Outcome.ofExcept (K.accessZones stored)
      return some zones

/-- The field of the schema a column is read as. -/
def field (index : Nat) : Except Error (Field DataType) :=
  match reader.schema.fields[index]? with
  | some field => .ok field
  | none => .error (.invalidArgument
      s!"column {index} is out of range for a {reader.schema.fields.length}-column schema")

/-- Decode some rows of a column from a source. A column the segment predates reads as nulls. -/
def columnFrom (source : BufferSource) (found : SegmentMeta) (field : Field DataType) (index start len : Nat) :
    Outcome Error ArrayData :=
  match found.columns[index]? with
  | none => .ok (K.newNullArray field.dataType len)
  | some chunk => decodeColumnRows K source chunk field.dataType start len

/-- Decode one column by its position in the table schema. -/
def column (index : Nat) : Outcome Error ArrayData := do
  let found ← reader.segmentMeta K
  let field ← Outcome.ofExcept (reader.field index)
  match found.columns[index]? with
  | none => return K.newNullArray field.dataType found.rowCount
  | some chunk => decodeColumn K (segmentBytes reader.bytes) chunk field.dataType

/-- The columns a projection names. -/
def indices (projection : Option (List Nat)) : List Nat :=
  match projection with
  | some indices => indices
  | none => List.range reader.schema.fields.length

def projectedField (index : Nat) : Except Error (Field DataType) :=
  match reader.schema.fields[index]? with
  | some field => .ok field
  | none => .error (.invalidArgument
      s!"projected column {index} is out of range for a {reader.schema.fields.length}-column schema")

/-- Decode the named columns for a range of rows, from a source of stored buffers. -/
def readRowsFrom (source : BufferSource) (projection : Option (List Nat)) (start len : Nat) :
    Outcome Error RecordBatch := do
  let indices := reader.indices projection
  let fields ← Outcome.ofExcept (indices.mapM reader.projectedField)
  let found ← reader.segmentMeta K
  let columns ← (indices.zip fields).mapM fun (index, field) => columnFrom K source found field index start len
  -- a count-only scan projects nothing, and still carries the row count
  let rowCount := if columns.isEmpty then some len else none
  Outcome.ofExcept (RecordBatch.tryNew ⟨fields, []⟩ columns rowCount)

/-- Decode the named columns for a range of rows. -/
def readRows (projection : Option (List Nat)) (start len : Nat) : Outcome Error RecordBatch :=
  reader.readRowsFrom K (segmentBytes reader.bytes) projection start len

/-- Decode the named columns. -/
def read (projection : Option (List Nat)) : Outcome Error RecordBatch := do
  let rows ← reader.rowCount K
  reader.readRows K projection 0 rows

/-- Every byte range the projected columns occupy. -/
def projectedExtents (projection : Option (List Nat)) : Outcome Error (List Extent) := do
  let found ← reader.segmentMeta K
  let indices := projection.getD (List.range found.columns.length)
  let extents ← indices.mapM fun index =>
    match found.columns[index]? with
    | some chunk => (return chunk.extents : Outcome Error (List Extent))
    | none => .fail (.invalidArgument s!"column {index} is out of range")
  return extents.flatten

end Columns

end SegmentReader

section Fields

variable {reader : SegmentReader}

theorem projectedField_ok {field : Field DataType} {index : Nat} (h : reader.projectedField index = .ok field) :
    reader.schema.fields[index]? = some field := by
  unfold SegmentReader.projectedField at h
  split at h
  · next hfield => rw [hfield, Except.ok.inj h]
  · cases h

/-- The fields of a projection stand where it says. -/
theorem projectedFields {indices : List Nat} {fields : List (Field DataType)}
    (h : indices.mapM reader.projectedField = .ok fields) :
    ∀ entry ∈ indices.zip fields, reader.schema.fields[entry.1]? = some entry.2 := by
  intro entry hentry
  obtain ⟨position, hposition⟩ := List.getElem?_of_mem hentry
  obtain ⟨hindex, hfield⟩ := List.getElem?_zip_eq_some.mp hposition
  obtain ⟨index, hat, hok⟩ := (mapM_getElem? h).mp hfield
  obtain rfl := Option.some.inj (hindex.symm.trans hat)
  exact projectedField_ok hok

end Fields

section Pages

/-! A scan's read of one segment (`table/read.rs`), in the arithmetic of the machine. -/

/-- Add a range, joined to the last one where they meet. -/
def joinRange (ranges : List (Nat × Nat)) (range : Nat × Nat) : Outcome Error (List (Nat × Nat)) :=
  match ranges.getLast? with
  | none => return ranges ++ [range]
  | some (pos, taken) => do
      let stop ← Outcome.add usizeLimit pos taken
      if stop = range.1 then do
        let taken ← Outcome.add usizeLimit taken range.2
        return ranges.dropLast ++ [(pos, taken)]
      else return ranges ++ [range]

/-- Cut the rows from `pos` on at the blocks' boundaries, into at most `left` pieces. -/
def cutAtBlocks (blockRows pos stop : Nat) : Nat → Outcome Error (List (Nat × Nat))
  | 0 => return []
  | left + 1 =>
      if pos < stop then do
        let block ← Outcome.add usizeLimit (pos / blockRows) 1
        let boundary ← Outcome.mul usizeLimit block blockRows
        let piece ← Outcome.sub (min stop boundary) pos
        let next ← Outcome.add usizeLimit pos piece
        let pieces ← cutAtBlocks blockRows next stop left
        return (pos, piece) :: pieces
      else return []

/-- Cut ranges so that none of them spans two blocks. -/
def splitAtBlocks (ranges : List (Nat × Nat)) (blockRows : Nat) : Outcome Error (List (Nat × Nat)) :=
  if blockRows = 0 then return ranges
  else do
    let pieces ← ranges.mapM fun (start, len) => do
      let stop ← Outcome.add usizeLimit start len
      cutAtBlocks blockRows start stop len
    return pieces.flatten

variable (K : Kit)

/-- The row ranges a page selection asks for, with neighbours joined. -/
def SegmentReader.keptRanges (reader : SegmentReader) (keep : List Bool) : Outcome Error (List (Nat × Nat)) :=
  keep.zipIdx.foldlM (fun ranges (wanted, page) =>
    if wanted then do
      match ← reader.pageRange K page with
      | none => return ranges
      | some range => joinRange ranges range
    else return ranges) []

/-- The ranges to read: the whole segment, or the pages a caller still wants. -/
def SegmentReader.rangesFor (reader : SegmentReader) (rows : Nat) (keep : Option (List Bool)) :
    Outcome Error (List (Nat × Nat)) :=
  match keep with
  | none => return [(0, rows)]
  | some keep => reader.keptRanges K keep

/-- A mask with `true` for the rows a scan should keep, when any are deleted. -/
def keepMask (deletes : Option (Finset Nat)) (rows : Nat) : Option (List Bool) :=
  match deletes with
  | none => none
  | some deleted => if deleted = ∅ then none else some ((List.range rows).map fun row => decide (row ∉ deleted))

/-- A decoded range, without the rows a mask drops. -/
def applyMask (mask : Option (List Bool)) (start len : Nat) (page : RecordBatch) : Outcome Error RecordBatch :=
  match mask with
  | none => return page
  | some mask => do
      let mask ← Outcome.slice mask start (start + len)
      let columns ← page.columns.mapM fun column =>
        match K.filter column mask with
        | .ok kept => Outcome.ofExcept (.ok kept)
        | .error message => .fail (.arrow message)
      return { page with columns := columns, numRows := mask.count true }

/-- Cut a batch into pieces of at most `rows` rows. -/
def sliceBatches (batch : RecordBatch) (rows : Nat) : List RecordBatch :=
  if batch.numRows = 0 then []
  else if rows = 0 ∨ batch.numRows ≤ rows then [batch]
  else (List.range ((batch.numRows + rows - 1) / rows)).map fun index =>
    batch.slice K (index * rows) (min rows (batch.numRows - index * rows))

/-- Read a segment, keeping only the pages a caller still wants. -/
def readSegmentPages (bytes : Bytes) (segmentStart : Nat) (metaAt : Extent) (schema : Schema DataType) (layout : List Nat)
    (deletes : Option (Finset Nat)) (projection : Option (List Nat)) (keep : Option (List Bool)) (scanBatchRows : Nat) :
    Outcome Error (List RecordBatch) := do
  let reader ← SegmentReader.new K bytes segmentStart metaAt schema layout
  let rows ← reader.rowCount K
  let mask := keepMask deletes rows
  let ranges ← reader.rangesFor K rows keep
  let blockRows ← reader.blockRows K
  let ranges ← splitAtBlocks ranges blockRows
  let pages ← ranges.mapM fun (start, len) => do
    let page ← reader.readRows K projection start len
    let page ← applyMask K mask start len page
    return if page.numRows = 0 then [] else sliceBatches K page scanBatchRows
  return pages.flatten

end Pages

end Segment

end LocalTables
