import LocalTables.Columnar.Encode

/-! Turning stored buffers back into arrays (`columnar/decode.rs`). Where the bytes of a buffer come from is left open: a
source gives the bytes of an extent. -/

namespace LocalTables

namespace Segment

/-- Supplies the bytes of one stored buffer. -/
abbrev BufferSource := Extent → Outcome Error Bytes

/-- Serves buffers out of one segment held in memory. -/
def segmentBytes (bytes : Bytes) : BufferSource := fun extent => do
  let stop ← Outcome.add usizeLimit extent.offset extent.len
  if stop > bytes.length then
    .fail (.corrupt s!"buffer at {repr extent} runs past the {bytes.length}-byte segment")
  else Outcome.slice bytes extent.offset stop

/-- The form a chunk's array is stored in. -/
def storedType (type : DataType) : Encoding → DataType
  | .plain => type
  | .dictionary => dictionaryType type
  | .runLength => runLengthType type

section Decode

variable (K : Kit) (source : BufferSource)

/-- Read one buffer, verify it, and expand it if it was packed. -/
def load (spec : BufferSpec) (codec : Codec) : Outcome Error Bytes := do
  let stored ← source spec.extent
  if K.checksum stored ≠ spec.checksum then
    .fail (.checksum "column buffer" spec.checksum.toNat (K.checksum stored).toNat)
  else if codec = .none ∨ stored.length = spec.uncompressedLen then
    -- a buffer that did not shrink was stored raw
    return stored
  else K.decompress codec stored spec.uncompressedLen

/-- The bitmap of valid rows, when the chunk stores one. -/
def decodeNulls (buffers : List BufferSpec) (codec : Codec) (len : Nat) : Outcome Error (Option NullBuffer) :=
  match buffers.find? fun spec => spec.role == .validity with
  | none => return none
  | some spec => do
      let buffer ← load K source spec codec
      let required := (len + 7) / 8
      if buffer.length < required then
        .fail (.corrupt s!"a {len}-row chunk needs {required} bitmap bytes, found {buffer.length}")
      else return some ⟨buffer.take required, len, buffer.length⟩

mutual

/-- Rebuild the array a chunk stores, whatever its type. -/
def rebuild : ColumnChunk → DataType → Outcome Error ArrayData
  | ⟨_, codec, len, _, _, _, offset, buffers, children, _, _, _⟩, type => do
      let nulls ← decodeNulls K source buffers codec len
      let data ← (buffers.filter fun spec => spec.role == .data).mapM fun spec => load K source spec codec
      if children.length ≠ type.childDataTypes.length then
        .fail (.corrupt
          s!"a {K.display type} column holds {children.length} children, the type has {type.childDataTypes.length}")
      else
        let below ← rebuildChildren children type.childDataTypes
        match K.build ⟨type, len, offset, nulls, data, below⟩ with
        | .ok array => return array
        | .error message => .fail (.corrupt s!"a {K.display type} column failed Arrow's checks: {message}")

def rebuildChildren : List ColumnChunk → List DataType → Outcome Error (List ArrayData)
  | chunk :: chunks, type :: types => do
      let child ← rebuild chunk type
      let children ← rebuildChildren chunks types
      return child :: children
  | _, _ => return []

end

/-- Some rows of an array. -/
def sliceRows (array : ArrayData) (start len : Nat) : Outcome Error ArrayData :=
  if start + len ≤ array.len then .ok (K.slice array start len)
  else .panic "the length + offset of the sliced array cannot exceed the existing length"

/-- The rows asked for, before they are expanded. -/
def rowsAsked (array : ArrayData) (stored start len : Nat) : Outcome Error ArrayData :=
  if start = 0 ∧ len = stored then .ok array else sliceRows K array start len

/-- What a chunk stores is given the type of its column. -/
def expand (array : ArrayData) (type : DataType) (encoding : Encoding) : Outcome Error ArrayData :=
  match encoding with
  | .plain => .ok array
  | .dictionary =>
      match K.cast array type with
      | .ok expanded => .ok expanded
      | .error message => .fail (.corrupt s!"a dictionary chunk failed to expand: {message}")
  | .runLength =>
      match K.cast array type with
      | .ok expanded => .ok expanded
      | .error message => .fail (.corrupt s!"a run-length chunk failed to expand: {message}")

/-- Bring the pieces of a range together. A piece that is alone is the range. -/
def joinParts (parts : List ArrayData) : Outcome Error ArrayData :=
  match parts with
  | [part] => .ok part
  | parts =>
      match K.concat parts with
      | .ok joined => .ok joined
      | .error message => .fail (.corrupt s!"blocks of a column failed to join: {message}")

/-- Room for the pieces of so many blocks. Each takes two words. -/
def withCapacity (count : Nat) : Outcome Error Unit :=
  if count * 16 < 2 ^ 63 then .ok () else .panic "capacity overflow"

/-- Where a block overlaps the rows asked for, from its own first row on, and how many rows that is. -/
def blockOverlap (blockRows blockLen start stop index : Nat) : Outcome Error (Nat × Nat) := do
  let blockStart ← Outcome.mul usizeLimit index blockRows
  let first ← Outcome.sub (max start blockStart) blockStart
  let blockStop ← Outcome.add usizeLimit blockStart blockLen
  let last ← Outcome.sub (min stop blockStop) blockStart
  let len ← Outcome.sub last first
  return (first, len)

mutual

/-- Decode a range of a column's rows. The stored array is assembled whole, and only the rows asked for are expanded. -/
def decodeColumnRows : ColumnChunk → DataType → Nat → Nat → Outcome Error ArrayData
  | ⟨encoding, codec, stored, nullCount, dictLen, runCount, offset, buffers, children, zone, blockRows, blocks⟩,
      type, start, len => do
      let stop ← Outcome.add usizeLimit start len
      if start > stored ∨ stop > stored then
        .fail (.invalidArgument s!"rows {start}..{stop} are outside a {stored}-row chunk")
      else if blocks.isEmpty then do
        let array ← rebuild K source
          ⟨encoding, codec, stored, nullCount, dictLen, runCount, offset, buffers, children, zone, blockRows, blocks⟩
          (storedType type encoding)
        let array ← rowsAsked K array stored start len
        expand K array type encoding
      else if blockRows = 0 then .fail (.corrupt "a chunk holds blocks but no block size")
      else if len = 0 then return K.newEmptyArray type
      else do
        -- only the blocks the range touches are read
        let first := start / blockRows
        let last := (stop - 1) / blockRows
        withCapacity (last - first + 1)
        let parts ← (List.range' first (last - first + 1)).mapM fun index =>
          decodeBlock blocks blocks.length type blockRows start stop index index
        joinParts K parts

/-- Decode what a range asks of the block that stands `left` places on. -/
def decodeBlock : List ColumnChunk → Nat → DataType → Nat → Nat → Nat → Nat → Nat → Outcome Error ArrayData
  | [], count, _, _, _, _, index, _ => .fail (.corrupt s!"block {index} is missing from a chunk of {count}")
  | block :: _, _, type, blockRows, start, stop, index, 0 => do
      let (first, len) ← blockOverlap blockRows block.len start stop index
      decodeColumnRows block type first len
  | _ :: blocks, count, type, blockRows, start, stop, index, left + 1 =>
      decodeBlock blocks count type blockRows start stop index left

end

/-- The machine's arithmetic gives the overlap where no sum leaves its words and the block reaches as far as the range asks. -/
theorem blockOverlap_eq {blockRows blockLen start stop index : Nat} (hstop : stop < usizeLimit) (hle : start ≤ stop)
    (hindex : index * blockRows ≤ stop) (hblock : index * blockRows + blockLen < usizeLimit)
    (hreach : start ≤ index * blockRows + blockLen) :
    blockOverlap blockRows blockLen start stop index =
      .ok (max start (index * blockRows) - index * blockRows,
        min stop (index * blockRows + blockLen) - index * blockRows - (max start (index * blockRows) - index * blockRows)) := by
  unfold blockOverlap
  rw [Outcome.mul_eq (hindex.trans_lt hstop)]
  generalize index * blockRows = blockStart at *
  have hfirst : blockStart ≤ max start blockStart := le_max_right _ _
  have hlast : blockStart ≤ min stop (blockStart + blockLen) := le_min hindex (Nat.le_add_right _ _)
  have hlen : max start blockStart - blockStart ≤ min stop (blockStart + blockLen) - blockStart := by omega
  simp only [bind, Except.bind, Outcome.sub_eq hfirst, Outcome.add_eq hblock, Outcome.sub_eq hlast, Outcome.sub_eq hlen]
  rfl

/-- Rebuild one column. -/
def decodeColumn (chunk : ColumnChunk) (type : DataType) : Outcome Error ArrayData :=
  decodeColumnRows K source chunk type 0 chunk.len

end Decode

end Segment

end LocalTables
