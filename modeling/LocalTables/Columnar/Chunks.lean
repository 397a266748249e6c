import LocalTables.Columnar.Trigram
import LocalTables.Columnar.Zonemap
import LocalTables.Lib.Panics

/-! What a segment stores of a column (`columnar/page.rs`, `columnar/codec.rs`): the buffers of an Arrow array as they lie in
memory, packed or not, and the same for the arrays below it. -/

namespace LocalTables

/-- A bitmap of valid rows that starts at bit zero, and how long the buffer is that it was cut from. -/
structure NullBuffer where
  bytes : Bytes
  len : Nat
  held : Nat
  deriving DecidableEq, Repr

namespace NullBuffer

/-- Whether a row is valid. -/
def isValid (nulls : NullBuffer) (row : Nat) : Bool := ((nulls.bytes[row / 8]?).getD 0).toNat.testBit (row % 8)

def nullCount (nulls : NullBuffer) : Nat := ((List.range nulls.len).filter fun row => !nulls.isValid row).length

end NullBuffer

/-- An Arrow array as it lies in memory. -/
structure ArrayData where
  dataType : DataType
  len : Nat
  offset : Nat
  nulls : Option NullBuffer
  buffers : List Bytes
  children : List ArrayData

namespace ArrayData

def nullCount (array : ArrayData) : Nat := (array.nulls.map NullBuffer.nullCount).getD 0

end ArrayData

namespace DataType

mutual

/-- How deep the types below a type go. -/
def depth : DataType → Nat
  | leaf _ => 1
  | list _ field => fieldDepth field + 1
  | struct fields => fieldsDepth fields + 1
  | union fields _ => variantsDepth fields + 1
  | dictionary _ value => value.depth + 1
  | runEndEncoded runEnds values => max (fieldDepth runEnds) (fieldDepth values) + 1

def fieldDepth : Field DataType → Nat
  | ⟨_, type, _⟩ => type.depth

def fieldsDepth : List (Field DataType) → Nat
  | [] => 0
  | field :: fields => max (fieldDepth field) (fieldsDepth fields)

def variantsDepth : List (Int × Field DataType) → Nat
  | [] => 0
  | (_, field) :: fields => max (fieldDepth field) (variantsDepth fields)

end

/-- The types of a data type's child arrays, in Arrow's own order. -/
def childDataTypes : DataType → List DataType
  | leaf _ => []
  | list _ field => [field.dataType]
  | struct fields => fields.map Field.dataType
  | union fields _ => fields.map fun field => field.2.dataType
  | dictionary _ value => [value]
  | runEndEncoded runEnds values => [runEnds.dataType, values.dataType]

@[simp] theorem fieldDepth_eq (field : Field DataType) : fieldDepth field = field.dataType.depth := by
  cases field
  rw [fieldDepth]

theorem depth_pos (type : DataType) : 0 < type.depth := by
  cases type <;> exact Nat.succ_pos _

theorem depth_childDataTypes {type child : DataType} (h : child ∈ type.childDataTypes) : child.depth < type.depth := by
  cases type with
  | leaf => cases h
  | list layout field =>
      obtain rfl := List.mem_singleton.mp h
      rw [depth, fieldDepth_eq]
      exact Nat.lt_succ_self _
  | struct fields =>
      obtain ⟨field, hfield, rfl⟩ := List.mem_map.mp h
      have hle : field.dataType.depth ≤ fieldsDepth fields := by
        clear h
        induction fields with
        | nil => cases hfield
        | cons other fields ih =>
            rw [fieldsDepth, fieldDepth_eq]
            rcases List.mem_cons.mp hfield with rfl | hfield
            · exact le_max_left _ _
            · exact (ih hfield).trans (le_max_right _ _)
      rw [depth]
      omega
  | union fields mode =>
      obtain ⟨field, hfield, rfl⟩ := List.mem_map.mp h
      have hle : field.2.dataType.depth ≤ variantsDepth fields := by
        clear h
        induction fields with
        | nil => cases hfield
        | cons other fields ih =>
            rw [variantsDepth, fieldDepth_eq]
            rcases List.mem_cons.mp hfield with rfl | hfield
            · exact le_max_left _ _
            · exact (ih hfield).trans (le_max_right _ _)
      rw [depth]
      omega
  | dictionary key value =>
      obtain rfl := List.mem_singleton.mp h
      rw [depth]
      exact Nat.lt_succ_self _
  | runEndEncoded runEnds values =>
      rw [depth, fieldDepth_eq, fieldDepth_eq]
      rcases List.mem_cons.mp h with rfl | h
      · omega
      · obtain rfl := List.mem_singleton.mp h
        omega

end DataType

namespace Segment

inductive Codec where
  | none
  | lz4
  | zstd
  deriving DecidableEq, Repr

/-- The text an error of a codec begins with. -/
def Codec.name : Codec → String
  | .none => "no"
  | .lz4 => "lz4"
  | .zstd => "zstd"

inductive Encoding where
  | plain
  | dictionary
  | runLength
  deriving DecidableEq, Repr

/-- What a stored buffer means to the decoder. The last three are not Arrow's. -/
inductive BufferRole where
  | validity
  | data
  | bloom
  | trigram
  | pageZones
  deriving DecidableEq, Repr

/-- One stored buffer, where its bytes lie from the start of the segment. -/
structure BufferSpec where
  role : BufferRole
  extent : Extent
  uncompressedLen : Nat
  checksum : UInt64
  deriving DecidableEq, Repr

/-- One column's data inside a segment, with the chunks below it. A chunk cut into blocks holds no buffers of its own for
the rows. -/
structure ColumnChunk where
  encoding : Encoding
  codec : Codec
  len : Nat
  nullCount : Nat
  dictLen : Nat
  runCount : Nat
  offset : Nat
  buffers : List BufferSpec
  children : List ColumnChunk
  zone : ZoneMap
  blockRows : Nat
  blocks : List ColumnChunk

namespace ColumnChunk

variable (chunk : ColumnChunk)

def buffer (role : BufferRole) : Option BufferSpec := chunk.buffers.find? fun spec => spec.role == role

/-- Arrow's own buffers, in Arrow's order. -/
def dataBuffers : List BufferSpec := chunk.buffers.filter fun spec => spec.role == .data

mutual

/-- Every byte range a scan must fetch to read this chunk. The blocks are not among the chunks below it. -/
def extents : ColumnChunk → List Extent
  | ⟨_, _, _, _, _, _, _, buffers, children, _, _, _⟩ => buffers.map BufferSpec.extent ++ childExtents children

def childExtents : List ColumnChunk → List Extent
  | [] => []
  | chunk :: chunks => chunk.extents ++ childExtents chunks

end

end ColumnChunk

structure SegmentMeta where
  segmentId : Nat
  rowCount : Nat
  schemaFingerprint : Nat
  pageRows : Nat
  blockRows : Nat
  columns : List ColumnChunk

/-- Words of 64 bits. -/
def usizeLimit : Nat := 2 ^ 64

/-- The most bytes an allocation can have, less the padding to its alignment. -/
def allocLimit : Nat := 2 ^ 63 - bufferAlign

/-- What the segment code takes from elsewhere: Arrow, the compressors, the archive of its metadata, and how bounds and
filters are made of values. -/
structure Kit where
  /-- `ArrayDataBuilder::build` and `make_array`. -/
  build : ArrayData → Except String ArrayData
  slice : ArrayData → Nat → Nat → ArrayData
  concat : List ArrayData → Except String ArrayData
  cast : ArrayData → DataType → Except String ArrayData
  newEmptyArray : DataType → ArrayData
  newNullArray : DataType → Nat → ArrayData
  /-- The rows a mask keeps. -/
  filter : ArrayData → List Bool → Except String ArrayData
  /-- A view array around the values it names. -/
  gc : ArrayData → ArrayData
  /-- The bytes the views of an array name (`total_buffer_bytes_used`). -/
  viewBytesUsed : ArrayData → Nat
  /-- How a type is written in a message. -/
  display : DataType → String
  sliceMemorySize : ArrayData → Except String Nat
  arrayMemorySize : ArrayData → Nat
  /-- The values of an array, for bounds and filters. -/
  view : ArrayData → ArrowArray
  pack : Codec → Bytes → Except Error Bytes
  /-- What a packed buffer expands to in so many bytes of room. -/
  unpack : Codec → Bytes → Nat → Except String Bytes
  aggregates : Aggregates
  hashing : Hashing
  /-- `rkyv`. -/
  archive : SegmentMeta → Except Error Bytes
  access : Bytes → Except Error SegmentMeta
  archiveZones : List ZoneMap → Except Error Bytes
  accessZones : Bytes → Except Error (List ZoneMap)

namespace Kit

variable (K : Kit)

def checksum (bytes : Bytes) : UInt64 := K.hashing.checksum bytes

/-- Compress bytes, or leave them when that gains nothing. -/
def compress (codec : Codec) (bytes : Bytes) : Except Error (Option Bytes) :=
  if codec = .none then return none
  else do
    let packed ← K.pack codec bytes
    if packed.length ≥ bytes.length then
      return none
    else
      return some packed

/-- Expand bytes back to exactly `uncompressedLen` bytes. -/
def decompress (codec : Codec) (bytes : Bytes) (uncompressedLen : Nat) : Outcome Error Bytes :=
  if codec = .none then .fail (.invalidArgument "decompress called on an uncompressed buffer")
  else if uncompressedLen > allocLimit then .panic "buffer capacity overflows the address space"
  else
    match K.unpack codec bytes uncompressedLen with
    | .error message => .fail (.corrupt s!"{codec.name} buffer failed to decompress: {message}")
    | .ok out =>
        if out.length ≠ uncompressedLen then
          .fail (.corrupt s!"{codec.name} buffer expanded to {out.length} bytes, metadata says {uncompressedLen}")
        else .ok out

end Kit

end Segment

end LocalTables
