import LocalTables.Columnar.Chunks

/-! Writing a segment (`columnar/encode.rs` and the writing half of `columnar/segment.rs`). A column is stored as Arrow lays
it out, or as a dictionary or runs where that is smaller, whole or cut into blocks. -/

namespace LocalTables

namespace Segment

/-- Which columns get a filter. -/
inductive BloomFilters where
  | none
  | all
  | columns (names : List String)

def BloomFilters.covers (column : String) : BloomFilters → Bool
  | none => false
  | all => true
  | columns names => names.contains column

inductive Compression where
  | none
  | lz4
  | zstd
  | auto

/-- True for the types whose bytes are worth compression. -/
def isText : DataType → Bool
  | .leaf .utf8 | .leaf .largeUtf8 | .leaf .utf8View | .leaf .binary | .leaf .largeBinary | .leaf .binaryView => true
  | .dictionary _ values => isText values
  | _ => false

/-- The codec to store one column with. -/
def Compression.codecFor (type : DataType) : Compression → Codec
  | none => .none
  | lz4 => .lz4
  | zstd => .zstd
  | auto => if isText type then .lz4 else .none

/-- The options a segment is written with. -/
structure Options where
  compression : Compression
  dictionaryEncoding : Bool
  rleEncoding : Bool
  compressionBlockRows : Nat
  pageRows : Nat
  bloomFilters : BloomFilters
  trigramFilters : BloomFilters
  bloomBitsPerValue : Nat

/-- One column, encoded and ready to write. -/
structure EncodedColumn where
  encoding : Encoding
  len : Nat
  nullCount : Nat
  dictLen : Nat
  runCount : Nat
  offset : Nat
  zone : ZoneMap
  buffers : List (BufferRole × Bytes)
  children : List EncodedColumn

mutual

/-- Bytes this column contributes to the segment, before compression. -/
def EncodedColumn.byteLen : EncodedColumn → Nat
  | ⟨_, _, _, _, _, _, _, buffers, children⟩ => (buffers.map fun buffer => buffer.2.length).sum + childBytes children

def childBytes : List EncodedColumn → Nat
  | [] => 0
  | child :: children => child.byteLen + childBytes children

end

def unknownZone : ZoneMap := ⟨0, none, none⟩

/-- Bytes per value for the fixed-width types this format stores. -/
def fixedWidth : LeafType → Option Nat
  | .int8 | .uint8 => some 1
  | .int16 | .uint16 | .float16 => some 2
  | .int32 | .uint32 | .float32 | .date32 | .time32 _ | .interval .yearMonth => some 4
  | .int64 | .uint64 | .float64 | .date64 | .time64 _ | .timestamp _ _ | .duration _ | .interval .dayTime => some 8
  | .decimal128 _ _ | .interval .monthDayNano => some 16
  | .decimal256 _ _ => some 32
  | .fixedSizeBinary width => some width
  | _ => none

/-- True for types worth trying an alternative encoding on. -/
def worthReEncoding : DataType → Bool
  | .leaf .null | .leaf .boolean => false
  | .leaf type => (fixedWidth type).isSome || [LeafType.utf8, .largeUtf8, .binary, .largeBinary].contains type
  | _ => false

/-- The form of a column stored as distinct values. -/
def dictionaryType (type : DataType) : DataType := .dictionary .int32 type

/-- The form of a column stored as runs. -/
def runLengthType (type : DataType) : DataType :=
  .runEndEncoded ⟨"run_ends", .leaf .int32, false⟩ ⟨"values", type, true⟩

section Encode

variable (K : Kit)

/-- For a view array, the bytes its views reference and the bytes its data buffers hold. -/
def viewBytes (array : ArrayData) : Option (Nat × Nat) :=
  match array.dataType with
  | .leaf .utf8View | .leaf .binaryView =>
      some (K.viewBytesUsed array, ((array.buffers.drop 1).map List.length).sum)
  | _ => none

/-- True when this array's buffers hold its rows and nothing else. -/
def carriesOnlyItsOwnRows (array : ArrayData) : Bool :=
  if array.offset ≠ 0 then false
  else
    match viewBytes K array with
    | some (referenced, held) => held ≤ referenced
    | none =>
        match K.sliceMemorySize array with
        -- a type Arrow will not measure is stored as it stands
        | .error _ => true
        | .ok needed =>
            let held := (array.buffers.map List.length).sum + (array.nulls.map NullBuffer.held).getD 0 +
              (array.children.map fun child => (K.sliceMemorySize child).toOption.getD 0).sum
            held ≤ needed

/-- Copy an array into fresh buffers holding only its own rows, for the types Arrow can do that for. -/
def compact (array : ArrayData) : Option ArrayData :=
  match array.dataType with
  | .leaf .utf8View | .leaf .binaryView => some (K.gc array)
  | type => (K.concat [K.newEmptyArray type, array]).toOption

/-- The array whose buffers are stored. -/
def storedArray (array : ArrayData) : ArrayData :=
  if carriesOnlyItsOwnRows K array then array else (compact K array).getD array

/-- The bitmap is stored where there is a null. -/
def validity (array : ArrayData) : List (BufferRole × Bytes) :=
  match array.nulls with
  | some nulls => if nulls.nullCount > 0 then [(.validity, nulls.bytes)] else []
  | none => []

/-- Encode an array exactly as Arrow lays it out, with the arrays below it to a given depth. -/
def encodePlainTo : Nat → ArrayData → ZoneMap → Except Error EncodedColumn
  | 0, _, _ => .error (.arrow "an array is deeper than its type")
  | depth + 1, array, zone => do
      let array := storedArray K array
      let children ← array.children.mapM fun child => encodePlainTo depth child unknownZone
      return {
        encoding := .plain
        len := array.len
        nullCount := array.nullCount
        dictLen := 0
        runCount := 0
        offset := array.offset
        zone := zone
        buffers := validity array ++ array.buffers.map fun buffer => (.data, buffer)
        children := children }

/-- An array is as deep as its type. -/
def encodePlain (array : ArrayData) (zone : ZoneMap) : Except Error EncodedColumn :=
  encodePlainTo K array.dataType.depth array zone

/-- Rows of the first array below: the distinct values of a dictionary, the ends of runs. -/
def firstChildLen (array : ArrayData) : Nat := (array.children.head?.map ArrayData.len).getD 0

/-- Encode as distinct values plus one index per row. -/
def tryDictionary (array : ArrayData) (zone : ZoneMap) : Except Error (Option EncodedColumn) :=
  if ¬worthReEncoding array.dataType ∨ array.len = 0 then return none
  else
    match K.cast array (dictionaryType array.dataType) with
    | .error _ => return none
    | .ok encoded => do
        if firstChildLen encoded * 2 ≥ array.len then return none
        else
          let column ← encodePlain K encoded zone
          return some { column with
            encoding := .dictionary
            dictLen := firstChildLen encoded
            nullCount := array.nullCount }

/-- Encode as run ends plus one value per run. -/
def tryRunLength (array : ArrayData) (zone : ZoneMap) : Except Error (Option EncodedColumn) :=
  if ¬worthReEncoding array.dataType ∨ array.len = 0 then return none
  else
    match K.cast array (runLengthType array.dataType) with
    | .error _ => return none
    | .ok encoded => do
        -- one run per row means the column has no repetition to exploit
        if firstChildLen encoded * 2 ≥ array.len then return none
        else
          let column ← encodePlain K encoded zone
          return some { column with
            encoding := .runLength
            runCount := firstChildLen encoded
            nullCount := array.nullCount }

def zoneOf (array : ArrayData) : ZoneMap := ZoneMap.build K.aggregates (K.view array)

/-- The smaller of an encoding and a candidate. The encoding wins ties. -/
def smaller (best : EncodedColumn) : Option EncodedColumn → EncodedColumn
  | some candidate => if candidate.byteLen < best.byteLen then candidate else best
  | none => best

/-- A form is tried where the options ask for it. -/
def candidate (wanted : Bool) (attempt : Except Error (Option EncodedColumn)) : Except Error (Option EncodedColumn) :=
  if wanted then attempt else return none

/-- Encode one column, choosing the encoding that stores it smallest. -/
def encodeColumn (array : ArrayData) (options : Options) : Except Error EncodedColumn := do
  let zone := zoneOf K array
  let plain ← encodePlain K array zone
  let dictionary ← candidate options.dictionaryEncoding (tryDictionary K array zone)
  let best := smaller plain dictionary
  let runs ← candidate options.rleEncoding (tryRunLength K array zone)
  return smaller best runs

/-- What describes a column as a whole, without encoding any of it. -/
def describing (array : ArrayData) : EncodedColumn where
  encoding := .plain
  len := array.len
  nullCount := array.nullCount
  dictLen := 0
  runCount := 0
  offset := 0
  zone := zoneOf K array
  buffers := []
  children := []

/-- Bytes as they will land on disk, and the codec they were packed with. -/
structure StoredBuffer where
  codec : Codec
  uncompressedLen : Nat
  bytes : Bytes

/-- Apply a codec to a buffer, keeping whichever form is smaller. -/
def compressBuffer (codec : Codec) (buffer : Bytes) : Except Error StoredBuffer := do
  match ← K.compress codec buffer with
  | some packed => return ⟨codec, buffer.length, packed⟩
  | none => return ⟨.none, buffer.length, buffer⟩

def compressBuffers (codec : Codec) (buffers : List (BufferRole × Bytes)) : Except Error (List (BufferRole × StoredBuffer)) :=
  buffers.mapM fun buffer => do
    let stored ← compressBuffer K codec buffer.2
    return (buffer.1, stored)

end Encode

section Write

variable (K : Kit)

def padToAlignment (bytes : Bytes) : Bytes :=
  bytes ++ List.replicate (alignUp bytes.length bufferAlign - bytes.length) 0

/-- Append one buffer to the segment, and note where it lies. -/
def place (placed : Bytes × List BufferSpec) (buffer : BufferRole × StoredBuffer) : Bytes × List BufferSpec :=
  let bytes := padToAlignment placed.1
  (bytes ++ buffer.2.bytes, placed.2 ++
    [⟨buffer.1, ⟨bytes.length, buffer.2.bytes.length⟩, buffer.2.uncompressedLen, K.checksum buffer.2.bytes⟩])

/-- A buffer that is stored raw. -/
def StoredBuffer.raw (bytes : Bytes) : StoredBuffer := ⟨.none, bytes.length, bytes⟩

/-- The bounds of a column's pages, ready to write. -/
def zonesBuffer (pages : Option (List ZoneMap)) : Except Error (List (BufferRole × StoredBuffer)) :=
  match pages with
  | some pages => do
      let bytes ← K.archiveZones pages
      return [(.pageZones, StoredBuffer.raw bytes)]
  | none => return []

def filterBuffer (role : BufferRole) (filter : Option BloomFilter) : List (BufferRole × StoredBuffer) :=
  (filter.map fun filter => (role, StoredBuffer.raw filter.toBytes)).toList

mutual

/-- Write one encoded column, with the columns below it. -/
def writeChunk (codec : Codec) (side : List (BufferRole × StoredBuffer)) :
    EncodedColumn → Bytes → Except Error (Bytes × ColumnChunk)
  | ⟨encoding, len, nullCount, dictLen, runCount, offset, zone, buffers, children⟩, bytes => do
      let stored ← compressBuffers K codec buffers
      let (bytes, specs) := (stored ++ side).foldl (place K) (bytes, [])
      let (bytes, chunks) ← writeChildren codec children bytes
      return (bytes, {
        encoding := encoding
        codec := if stored.any fun buffer => buffer.2.codec ≠ .none then codec else .none
        len := len
        nullCount := nullCount
        dictLen := dictLen
        runCount := runCount
        offset := offset
        buffers := specs
        children := chunks
        zone := zone
        blockRows := 0
        blocks := [] })

def writeChildren (codec : Codec) : List EncodedColumn → Bytes → Except Error (Bytes × List ColumnChunk)
  | [], bytes => return (bytes, [])
  | child :: children, bytes => do
      let (bytes, chunk) ← writeChunk codec [] child bytes
      let (bytes, chunks) ← writeChildren codec children bytes
      return (bytes, chunk :: chunks)

end

/-- True when cutting a column into blocks pays for itself. -/
def worthBlocking (codec : Codec) (type : DataType) : Bool :=
  if codec ≠ .none then true
  else
    match type with
    | .leaf .utf8 | .leaf .largeUtf8 | .leaf .binary | .leaf .largeBinary => true
    | .list .list _ | .list .largeList _ | .list (.map _) _ => true
    | _ => false

/-- Whether this column goes into blocks. -/
def blocksWanted (array : ArrayData) (codec : Codec) (options : Options) : Bool :=
  options.compressionBlockRows > 0 && array.len > options.compressionBlockRows && worthBlocking codec array.dataType

/-- The rows of each block, from `start` on, at most one block for each of the `left` rows. -/
def blockRanges (blockRows rows start : Nat) : Nat → List (Nat × Nat)
  | 0 => []
  | left + 1 =>
      if start < rows then
        let len := min blockRows (rows - start)
        (start, len) :: blockRanges blockRows rows (start + len) left
      else []

/-- Write one block of a column. -/
def writeBlock (array : ArrayData) (codec : Codec) (options : Options) (written : Bytes × List ColumnChunk)
    (range : Nat × Nat) : Except Error (Bytes × List ColumnChunk) := do
  let piece ← encodeColumn K (K.slice array range.1 range.2) options
  let (bytes, block) ← writeChunk K codec [] piece written.1
  return (bytes, written.2 ++ [block])

/-- Write a column, cut into blocks where that pays. -/
def writeBlockedChunk (array : ArrayData) (encoded : EncodedColumn) (codec : Codec) (options : Options)
    (side : List (BufferRole × StoredBuffer)) (bytes : Bytes) : Except Error (Bytes × ColumnChunk) :=
  if ¬blocksWanted array codec options then writeChunk K codec side encoded bytes
  else do
    let blockRows := options.compressionBlockRows
    let (bytes, blocks) ← (blockRanges blockRows array.len 0 array.len).foldlM (writeBlock K array codec options) (bytes, [])
    let (bytes, outer) ← writeChunk K codec side { encoded with buffers := [], children := [] } bytes
    -- what the column is stored with is what its blocks are stored with
    return (bytes, { outer with
      blockRows := blockRows
      codec := if blocks.any fun block => block.codec ≠ .none then codec else .none
      blocks := blocks })

/-- A column that goes into blocks is encoded block by block, and only described here. -/
def columnEncoding (array : ArrayData) (codec : Codec) (options : Options) : Except Error EncodedColumn :=
  if blocksWanted array codec options then return describing K array else encodeColumn K array options

def columnBloom (array : ArrayData) (field : Field DataType) (options : Options) : Except Error (Option BloomFilter) :=
  if options.bloomFilters.covers field.name then BloomFilter.build K.hashing (K.view array) options.bloomBitsPerValue
  else return none

/-- Encode one column, build what describes it, and append it to the segment. -/
def writeColumn (array : ArrayData) (field : Field DataType) (options : Options) (bytes : Bytes) :
    Except Error (Bytes × ColumnChunk) := do
  let codec := options.compression.codecFor field.dataType
  let encoded ← columnEncoding K array codec options
  let bloom ← columnBloom K array field options
  let trigram := if options.trigramFilters.covers field.name then
      Trigram.build K.hashing (K.view array) options.bloomBitsPerValue (K.arrayMemorySize array)
    else none
  let zones ← zonesBuffer K (pageZones K.aggregates (K.view array) options.pageRows)
  writeBlockedChunk K array encoded codec options (filterBuffer .bloom bloom ++ filterBuffer .trigram trigram ++ zones) bytes

/-- The columns of the schema, each appended to the segment. -/
def writeColumns (options : Options) : List (ArrayData × Field DataType) → Bytes → Except Error (Bytes × List ColumnChunk)
  | [], bytes => return (bytes, [])
  | column :: columns, bytes => do
      let (bytes, chunk) ← writeColumn K column.1 column.2 options bytes
      let (bytes, chunks) ← writeColumns options columns bytes
      return (bytes, chunk :: chunks)

/-- Rows as Arrow hands them over, column by column. -/
structure RecordBatch where
  schema : Schema DataType
  columns : List ArrayData
  numRows : Nat

def RecordBatch.column (batch : RecordBatch) (index : Nat) : Except Error ArrayData :=
  match batch.columns[index]? with
  | some array => .ok array
  | none => .error (.arrow "a column is out of range")

/-- Bring one column together across the batches. -/
def concatColumn (batches : List RecordBatch) (index : Nat) (type : DataType) : Except Error ArrayData :=
  match batches with
  | [] => return K.newEmptyArray type
  | [batch] => batch.column index
  | _ => do
      let parts ← batches.mapM fun batch => batch.column index
      match K.concat parts with
      | .ok joined => return joined
      | .error message => throw (.arrow message)

/-- Bring each column together across the batches. -/
def concatColumns (schema : Schema DataType) (batches : List RecordBatch) : Except Error (List (ArrayData × Field DataType)) :=
  schema.fields.zipIdx.mapM fun (field, index) => do
    let array ← concatColumn K batches index field.dataType
    return (array, field)

/-- A segment serialized into memory. The metadata frame is located from the segment's start. -/
structure BuiltSegment where
  bytes : Bytes
  metaExtent : Extent
  rowCount : Nat
  segmentMeta : SegmentMeta

/-- The segment's extents once it is placed in the file. -/
def BuiltSegment.placed (built : BuiltSegment) (offset : Nat) : Extent × Extent :=
  (⟨offset, built.bytes.length⟩, ⟨offset + built.metaExtent.offset, built.metaExtent.len⟩)

/-- The tag of a segment's metadata. -/
def segmentTag : Nat := Frame.tagOf "LTSEGMET"

/-- Serialize batches into one segment. -/
def buildSegment (segmentId : Nat) (schema : Schema DataType) (schemaFingerprint : Nat) (batches : List RecordBatch)
    (options : Options) : Except Error BuiltSegment := do
  if batches.any fun batch => batch.schema.fields ≠ schema.fields then
    throw (.schemaMismatch "a batch does not have the schema the table expects")
  else
    let rowCount := (batches.map RecordBatch.numRows).sum
    let columns ← concatColumns K schema batches
    let (bytes, chunks) ← writeColumns K options columns []
    let segmentMeta : SegmentMeta := {
      segmentId := segmentId
      rowCount := rowCount
      schemaFingerprint := schemaFingerprint
      pageRows := storedPageRows rowCount options.pageRows
      blockRows := if chunks.any fun chunk => ¬chunk.blocks.isEmpty then options.compressionBlockRows else 0
      columns := chunks }
    let bytes := padToAlignment bytes
    let payload ← K.archive segmentMeta
    let metaFrame := Frame.encode K.checksum segmentTag payload
    return ⟨bytes ++ metaFrame, ⟨bytes.length, metaFrame.length⟩, rowCount, segmentMeta⟩

end Write

end Segment

end LocalTables
