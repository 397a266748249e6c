import LocalTables.Columnar.ReadBack

/-! Where a segment's buffers lie. They are appended one after the other, each at a multiple of the alignment, by writers that call
each other: the blocks of a column before the column, a column before the columns below it. -/

namespace LocalTables

namespace Segment

namespace ColumnChunk

mutual

/-- All buffers of a column, in the order they are written. -/
def specs : ColumnChunk → List BufferSpec
  | ⟨_, _, _, _, _, _, _, buffers, children, _, _, blocks⟩ => specsOf blocks ++ (buffers ++ specsOf children)

def specsOf : List ColumnChunk → List BufferSpec
  | [] => []
  | chunk :: chunks => chunk.specs ++ specsOf chunks

end

mutual

/-- Bytes this chunk occupies on disk, children included. -/
def storedBytes : ColumnChunk → Nat
  | ⟨_, _, _, _, _, _, _, buffers, children, _, _, blocks⟩ =>
      (buffers.map fun spec => spec.extent.len).sum + storedBytesOf children + storedBytesOf blocks

def storedBytesOf : List ColumnChunk → Nat
  | [] => 0
  | chunk :: chunks => chunk.storedBytes + storedBytesOf chunks

end

mutual

/-- What a chunk occupies is what its buffers occupy. -/
theorem storedBytes_eq : ∀ chunk : ColumnChunk, chunk.storedBytes = (chunk.specs.map fun spec => spec.extent.len).sum
  | ⟨_, _, _, _, _, _, _, buffers, children, _, _, blocks⟩ => by
      rw [storedBytes, specs, List.map_append, List.sum_append, List.map_append, List.sum_append, storedBytesOf_eq children,
        storedBytesOf_eq blocks]
      omega

theorem storedBytesOf_eq : ∀ chunks : List ColumnChunk,
    storedBytesOf chunks = ((specsOf chunks).map fun spec => spec.extent.len).sum
  | [] => rfl
  | chunk :: chunks => by
      rw [storedBytesOf, specsOf, List.map_append, List.sum_append, storedBytes_eq chunk, storedBytesOf_eq chunks]

end

theorem storedBytesOf_sum (chunks : List ColumnChunk) : storedBytesOf chunks = (chunks.map storedBytes).sum := by
  induction chunks with
  | nil => rfl
  | cons chunk chunks ih => rw [storedBytesOf, List.map_cons, List.sum_cons, ih]

end ColumnChunk

/-- Buffers between two places, one behind the other, each aligned. -/
structure Laid (start stop : Nat) (specs : List BufferSpec) : Prop where
  ordered : specs.Pairwise fun first second => first.extent.stop ≤ second.extent.offset
  within : ∀ spec ∈ specs, start ≤ spec.extent.offset ∧ spec.extent.stop ≤ stop
  aligned : ∀ spec ∈ specs, bufferAlign ∣ spec.extent.offset

section Laid

variable {K : Kit} {start middle stop : Nat} {specs specs' : List BufferSpec}

theorem Laid.nil : Laid start stop [] :=
  ⟨.nil, fun _ h => absurd h List.not_mem_nil, fun _ h => absurd h List.not_mem_nil⟩

theorem Laid.append (h : Laid start middle specs) (h' : Laid middle stop specs') (hstart : start ≤ middle) (hstop : middle ≤ stop) :
    Laid start stop (specs ++ specs') := by
  constructor
  · refine List.pairwise_append.mpr ⟨h.ordered, h'.ordered, fun first hfirst second hsecond => ?_⟩
    calc first.extent.stop ≤ middle := (h.within first hfirst).2
      _ ≤ second.extent.offset := (h'.within second hsecond).1
  · intro spec hspec
    rcases List.mem_append.mp hspec with hspec | hspec
    · exact ⟨(h.within spec hspec).1, (h.within spec hspec).2.trans hstop⟩
    · exact ⟨hstart.trans (h'.within spec hspec).1, (h'.within spec hspec).2⟩
  · intro spec hspec
    rcases List.mem_append.mp hspec with hspec | hspec
    · exact h.aligned spec hspec
    · exact h'.aligned spec hspec

theorem length_padToAlignment (bytes : Bytes) : (padToAlignment bytes).length = alignUp bytes.length bufferAlign := by
  have hle : bytes.length ≤ alignUp bytes.length bufferAlign := le_alignUp isPowerOfTwo_bufferAlign bytes.length
  rw [padToAlignment, List.length_append, List.length_replicate]
  omega

theorem aligned_padToAlignment (bytes : Bytes) : bufferAlign ∣ (padToAlignment bytes).length := by
  rw [length_padToAlignment]
  exact dvd_alignUp isPowerOfTwo_bufferAlign bytes.length

theorem foldl_laid {buffers : List (BufferRole × StoredBuffer)} {bytes bytes' : Bytes}
    (h : buffers.foldl (place K) (bytes, specs) = (bytes', specs')) :
    ∃ new, specs' = specs ++ new ∧ Laid bytes.length bytes'.length new := by
  induction buffers generalizing bytes specs with
  | nil =>
      obtain ⟨rfl, rfl⟩ := Prod.mk.inj h
      exact ⟨[], (List.append_nil _).symm, .nil⟩
  | cons buffer buffers ih =>
      rw [List.foldl_cons] at h
      obtain ⟨new, rfl, hlaid⟩ := ih h
      obtain ⟨-, -, hgrows, -⟩ := foldl_place h
      have hfirst : Laid bytes.length (padToAlignment bytes ++ buffer.2.bytes).length
          [⟨buffer.1, ⟨(padToAlignment bytes).length, buffer.2.bytes.length⟩, buffer.2.uncompressedLen,
            K.checksum buffer.2.bytes⟩] := by
        refine ⟨List.pairwise_singleton _ _, fun spec hspec => ?_, fun spec hspec => ?_⟩
        · obtain rfl := List.mem_singleton.mp hspec
          exact ⟨(padToAlignment_starts bytes).length_le, List.length_append.ge⟩
        · obtain rfl := List.mem_singleton.mp hspec
          exact aligned_padToAlignment bytes
      have hroom : bytes.length ≤ (padToAlignment bytes ++ buffer.2.bytes).length :=
        ((padToAlignment_starts bytes).trans (List.prefix_append _ _)).length_le
      refine ⟨_ :: new, List.append_assoc _ _ _, hfirst.append hlaid hroom hgrows.length_le⟩

mutual

/-- What a column is stored as lies behind what was there before. -/
theorem writeChunk_laid {codec : Codec} : ∀ {encoded : EncodedColumn} {side : List (BufferRole × StoredBuffer)}
    {bytes bytes' : Bytes} {chunk : ColumnChunk}, writeChunk K codec side encoded bytes = .ok (bytes', chunk) →
    Laid bytes.length bytes'.length chunk.specs
  | ⟨_, _, _, _, _, _, _, _, children⟩, side, bytes, bytes', chunk, h => by
      obtain ⟨stored, middle, specs, chunks, -, hplaced, hchildren, rfl⟩ := writeChunk_ok h
      obtain ⟨new, rfl, hlaid⟩ := foldl_laid hplaced
      obtain ⟨-, -, hgrows, -⟩ := foldl_place hplaced
      exact hlaid.append (writeChildren_laid hchildren) hgrows.length_le (writeChildren_between hchildren).1.length_le

theorem writeChildren_laid {codec : Codec} : ∀ {children : List EncodedColumn} {bytes bytes' : Bytes}
    {chunks : List ColumnChunk}, writeChildren K codec children bytes = .ok (bytes', chunks) →
    Laid bytes.length bytes'.length (ColumnChunk.specsOf chunks)
  | [], bytes, bytes', chunks, h => by
      rw [writeChildren] at h
      obtain ⟨rfl, rfl⟩ := Prod.mk.inj (Except.ok.inj h)
      exact .nil
  | child :: children, bytes, bytes', chunks, h => by
      rw [writeChildren] at h
      obtain ⟨⟨middle, chunk⟩, hchunk, h⟩ := bind_eq_ok.mp h
      obtain ⟨⟨final, rest⟩, hrest, h⟩ := bind_eq_ok.mp h
      obtain ⟨rfl, rfl⟩ := Prod.mk.inj (Except.ok.inj h)
      exact (writeChunk_laid hchunk).append (writeChildren_laid hrest) (writeChunk_between hchunk).1.length_le
        (writeChildren_between hrest).1.length_le

end

end Laid

section Stores

variable (K : Kit) (whole : Bytes)

mutual

/-- A chunk stores an encoded column: each of its buffers in its stored form, then what lies beside them, and the columns
below in the same way. -/
def Stores (codec : Codec) (side : List (BufferRole × StoredBuffer)) : EncodedColumn → ColumnChunk → Prop
  | ⟨_, _, _, _, _, _, _, buffers, children⟩, ⟨_, _, _, _, _, _, _, specs, chunks, _, _, _⟩ =>
      (∃ stored, compressBuffers K codec buffers = .ok stored ∧ List.Forall₂ (Placed K whole) (stored ++ side) specs) ∧
        StoresAll codec children chunks

def StoresAll (codec : Codec) : List EncodedColumn → List ColumnChunk → Prop
  | [], [] => True
  | child :: children, chunk :: chunks => Stores codec [] child chunk ∧ StoresAll codec children chunks
  | _, _ => False

end

mutual

/-- A chunk that is not cut into blocks, and none below it is. -/
def Unblocked : ColumnChunk → Prop
  | ⟨_, _, _, _, _, _, _, _, children, _, _, blocks⟩ => blocks = [] ∧ AllUnblocked children

def AllUnblocked : List ColumnChunk → Prop
  | [] => True
  | chunk :: chunks => Unblocked chunk ∧ AllUnblocked chunks

end

theorem Unblocked.blocks : ∀ {chunk : ColumnChunk}, Unblocked chunk → chunk.blocks = []
  | ⟨_, _, _, _, _, _, _, _, _, _, _, _⟩, h => h.1

/-- A chunk stores a column: whole as it is encoded, or block by block, with what describes it beside. A block is not cut up
any further. -/
def StoresColumn (options : Options) (column : ArrayData × Field DataType) (chunk : ColumnChunk) : Prop :=
  ∃ bloom zones, columnBloom K column.1 column.2 options = .ok bloom ∧
    zonesBuffer K (pageZones K.aggregates (K.view column.1) options.pageRows) = .ok zones ∧
    let codec := options.compression.codecFor column.2.dataType
    let trigram := if options.trigramFilters.covers column.2.name then
        Trigram.build K.hashing (K.view column.1) options.bloomBitsPerValue (K.arrayMemorySize column.1)
      else none
    let side := filterBuffer .bloom bloom ++ filterBuffer .trigram trigram ++ zones
    if blocksWanted column.1 codec options then
      List.Forall₂ (fun range block => ∃ piece, encodeColumn K (K.slice column.1 range.1 range.2) options = .ok piece ∧
        Unblocked block ∧ Stores K whole codec [] piece block) (blockRanges options.compressionBlockRows column.1.len 0 column.1.len) chunk.blocks ∧
        Stores K whole codec side (describing K column.1) chunk
    else Unblocked chunk ∧ ∃ encoded, encodeColumn K column.1 options = .ok encoded ∧ Stores K whole codec side encoded chunk

variable {K whole} {array : ArrayData} {field : Field DataType} {options : Options} {bytes bytes' : Bytes} {chunk : ColumnChunk}

mutual

theorem writeChunk_stores {codec : Codec} : ∀ {encoded : EncodedColumn} {side : List (BufferRole × StoredBuffer)}
    {bytes bytes' : Bytes} {chunk : ColumnChunk}, writeChunk K codec side encoded bytes = .ok (bytes', chunk) →
    bytes' <+: whole → Stores K whole codec side encoded chunk
  | ⟨_, _, _, _, _, _, _, _, children⟩, side, bytes, bytes', chunk, h, hstarts => by
      obtain ⟨stored, middle, specs, chunks, hstored, hplaced, hchildren, rfl⟩ := writeChunk_ok h
      obtain ⟨new, rfl, -, hin, -⟩ := foldl_place hplaced
      have hmiddle := (writeChildren_between hchildren).1.trans hstarts
      exact ⟨⟨stored, hstored, hin.imp fun _ _ hone => hone.mono hmiddle⟩, writeChildren_stores hchildren hstarts⟩

theorem writeChildren_stores {codec : Codec} : ∀ {children : List EncodedColumn} {bytes bytes' : Bytes}
    {chunks : List ColumnChunk}, writeChildren K codec children bytes = .ok (bytes', chunks) →
    bytes' <+: whole → StoresAll K whole codec children chunks
  | [], bytes, bytes', chunks, h, _ => by
      rw [writeChildren] at h
      obtain ⟨rfl, rfl⟩ := Prod.mk.inj (Except.ok.inj h)
      trivial
  | child :: children, bytes, bytes', chunks, h, hstarts => by
      rw [writeChildren] at h
      obtain ⟨⟨middle, chunk⟩, hchunk, h⟩ := bind_eq_ok.mp h
      obtain ⟨⟨final, rest⟩, hrest, h⟩ := bind_eq_ok.mp h
      obtain ⟨rfl, rfl⟩ := Prod.mk.inj (Except.ok.inj h)
      exact ⟨writeChunk_stores hchunk ((writeChildren_between hrest).1.trans hstarts), writeChildren_stores hrest hstarts⟩

end

mutual

theorem writeChunk_unblocked {codec : Codec} : ∀ {encoded : EncodedColumn} {side : List (BufferRole × StoredBuffer)}
    {bytes bytes' : Bytes} {chunk : ColumnChunk}, writeChunk K codec side encoded bytes = .ok (bytes', chunk) → Unblocked chunk
  | ⟨_, _, _, _, _, _, _, _, children⟩, side, bytes, bytes', chunk, h => by
      obtain ⟨stored, middle, specs, chunks, -, -, hchildren, rfl⟩ := writeChunk_ok h
      exact ⟨rfl, writeChildren_unblocked hchildren⟩

theorem writeChildren_unblocked {codec : Codec} : ∀ {children : List EncodedColumn} {bytes bytes' : Bytes}
    {chunks : List ColumnChunk}, writeChildren K codec children bytes = .ok (bytes', chunks) → AllUnblocked chunks
  | [], bytes, bytes', chunks, h => by
      rw [writeChildren] at h
      obtain ⟨rfl, rfl⟩ := Prod.mk.inj (Except.ok.inj h)
      trivial
  | child :: children, bytes, bytes', chunks, h => by
      rw [writeChildren] at h
      obtain ⟨⟨middle, chunk⟩, hchunk, h⟩ := bind_eq_ok.mp h
      obtain ⟨⟨final, rest⟩, hrest, h⟩ := bind_eq_ok.mp h
      obtain ⟨rfl, rfl⟩ := Prod.mk.inj (Except.ok.inj h)
      exact ⟨writeChunk_unblocked hchunk, writeChildren_unblocked hrest⟩

end

/-- The blocks of a column lie one behind the other. -/
theorem foldlM_laid {codec : Codec} {ranges : List (Nat × Nat)} {blocks blocks' : List ColumnChunk}
    (h : ranges.foldlM (writeBlock K array codec options) (bytes, blocks) = .ok (bytes', blocks')) :
    ∃ new, blocks' = blocks ++ new ∧ Laid bytes.length bytes'.length (ColumnChunk.specsOf new) := by
  induction ranges generalizing bytes blocks with
  | nil =>
      obtain ⟨rfl, rfl⟩ := Prod.mk.inj (Except.ok.inj h)
      exact ⟨[], (List.append_nil _).symm, .nil⟩
  | cons range ranges ih =>
      rw [List.foldlM_cons] at h
      obtain ⟨⟨middle, blocks₁⟩, hone, h⟩ := bind_eq_ok.mp h
      unfold writeBlock at hone
      obtain ⟨piece, -, hone⟩ := bind_eq_ok.mp hone
      obtain ⟨⟨middle', block⟩, hblock, hone⟩ := bind_eq_ok.mp hone
      obtain ⟨rfl, rfl⟩ := Prod.mk.inj (Except.ok.inj hone)
      obtain ⟨new, rfl, hlaid⟩ := ih h
      obtain ⟨-, -, hgrows, -⟩ := foldlM_writeBlock h
      exact ⟨block :: new, List.append_assoc _ _ _, (writeChunk_laid hblock).append hlaid (writeChunk_between hblock).1.length_le
        hgrows.length_le⟩

theorem writeBlockedChunk_laid {encoded : EncodedColumn} {codec : Codec} {side : List (BufferRole × StoredBuffer)}
    (h : writeBlockedChunk K array encoded codec options side bytes = .ok (bytes', chunk)) :
    Laid bytes.length bytes'.length chunk.specs := by
  by_cases hwanted : blocksWanted array codec options = true
  · obtain ⟨middle, blocks, outer, hblocks, houter, rfl⟩ := writeBlockedChunk_ok hwanted h
    obtain ⟨-, -, hgrows, -⟩ := foldlM_writeBlock hblocks
    obtain ⟨new, rfl, hlaid⟩ := foldlM_laid hblocks
    have hown := writeChunk_laid houter
    obtain ⟨_, _, _, _, -, -, -, rfl⟩ := writeChunk_ok houter
    exact hlaid.append hown hgrows.length_le (writeChunk_between houter).1.length_le
  · unfold writeBlockedChunk at h
    rw [if_pos hwanted] at h
    exact writeChunk_laid h

theorem writeColumn_stores (h : writeColumn K array field options bytes = .ok (bytes', chunk)) (hstarts : bytes' <+: whole) :
    StoresColumn K whole options (array, field) chunk := by
  unfold writeColumn at h
  obtain ⟨encoded, hencoded, h⟩ := bind_eq_ok.mp h
  obtain ⟨bloom, hbloom, h⟩ := bind_eq_ok.mp h
  obtain ⟨zones, hzones, h⟩ := bind_eq_ok.mp h
  refine ⟨bloom, zones, hbloom, hzones, ?_⟩
  dsimp only at h ⊢
  unfold columnEncoding at hencoded
  by_cases hwanted : blocksWanted array (options.compression.codecFor field.dataType) options = true
  · rw [if_pos hwanted] at hencoded ⊢
    obtain rfl := Except.ok.inj hencoded
    obtain ⟨middle, blocks, outer, hblocks, houter, rfl⟩ := writeBlockedChunk_ok hwanted h
    obtain ⟨new, rfl, -, hall, -⟩ := foldlM_writeBlock hblocks
    have hmiddle := (writeChunk_between houter).1.trans hstarts
    refine ⟨hall.imp fun range block hwritten => ?_, ?_⟩
    · obtain ⟨piece, before, after, hpiece, hwrite, hafter⟩ := hwritten
      exact ⟨piece, hpiece, writeChunk_unblocked hwrite, writeChunk_stores hwrite (hafter.trans hmiddle)⟩
    · have hstores := writeChunk_stores houter hstarts
      cases outer
      exact hstores
  · rw [if_neg hwanted] at hencoded ⊢
    unfold writeBlockedChunk at h
    rw [if_pos hwanted] at h
    exact ⟨writeChunk_unblocked h, encoded, hencoded, writeChunk_stores h hstarts⟩

theorem writeColumns_laid : ∀ {columns : List (ArrayData × Field DataType)} {bytes bytes' : Bytes} {chunks : List ColumnChunk},
    writeColumns K options columns bytes = .ok (bytes', chunks) →
    Laid bytes.length bytes'.length (ColumnChunk.specsOf chunks)
  | [], bytes, bytes', chunks, h => by
      rw [writeColumns] at h
      obtain ⟨rfl, rfl⟩ := Prod.mk.inj (Except.ok.inj h)
      exact .nil
  | column :: columns, bytes, bytes', chunks, h => by
      rw [writeColumns] at h
      obtain ⟨⟨middle, chunk⟩, hchunk, h⟩ := bind_eq_ok.mp h
      obtain ⟨⟨final, rest⟩, hrest, h⟩ := bind_eq_ok.mp h
      obtain ⟨rfl, rfl⟩ := Prod.mk.inj (Except.ok.inj h)
      obtain ⟨_, _, -, -, hwritten⟩ := writeColumn_ok hchunk
      exact (writeBlockedChunk_laid hwritten).append (writeColumns_laid hrest) (writeColumn_between hchunk).1.length_le
        (writeColumns_ok hrest).1.length_le

end Stores

section Built

variable {K : Kit} {schema : Schema DataType} {batches : List RecordBatch} {options : Options} {segmentId fingerprint : Nat}
  {built : BuiltSegment}

/-- The buffers of a segment that hold any bytes. -/
def BuiltSegment.filled (built : BuiltSegment) : List BufferSpec :=
  (ColumnChunk.specsOf built.segmentMeta.columns).filter fun spec => !spec.extent.isEmpty

/-- How a segment is laid out. -/
structure LaidOut (K : Kit) (schema : Schema DataType) (batches : List RecordBatch) (options : Options)
    (built : BuiltSegment) : Prop where
  apart : built.filled.Pairwise fun first second => first.extent.Apart second.extent
  aligned : ∀ spec ∈ built.filled, bufferAlign ∣ spec.extent.offset
  below : ∀ spec ∈ built.filled, spec.extent.stop ≤ built.metaExtent.offset
  metaAligned : bufferAlign ∣ built.metaExtent.offset
  stored : ∃ columns, concatColumns K schema batches = .ok columns ∧
    List.Forall₂ (StoresColumn K built.bytes options) columns built.segmentMeta.columns
  total : (built.segmentMeta.columns.map ColumnChunk.storedBytes).sum = (built.filled.map fun spec => spec.extent.len).sum

theorem sum_filled (specs : List BufferSpec) :
    ((specs.filter fun spec => !spec.extent.isEmpty).map fun spec => spec.extent.len).sum =
      (specs.map fun spec => spec.extent.len).sum := by
  induction specs with
  | nil => rfl
  | cons spec specs ih =>
      rw [List.map_cons, List.sum_cons, ← ih]
      by_cases hempty : spec.extent.isEmpty = true
      · rw [List.filter_cons_of_neg (by simpa using hempty), (Extent.isEmpty_iff _).mp hempty, Nat.zero_add]
      · rw [List.filter_cons_of_pos (by rw [Bool.eq_false_iff.mpr hempty]; rfl), List.map_cons, List.sum_cons]

/-- The buffers of a segment keep apart, each aligned and below the metadata, each in its stored form where its spec says. -/
theorem buffers_disjoint_aligned (h : buildSegment K segmentId schema fingerprint batches options = .ok built) :
    LaidOut K schema batches options built := by
  obtain ⟨columns, bytes, payload, hcolumns, hwritten, -, -, -, -, hall, hmeta⟩ := buildSegment_ok h
  have hlaid := writeColumns_laid hwritten
  have hpad := padToAlignment_starts bytes
  have hfilled : ∀ spec ∈ built.filled, spec ∈ ColumnChunk.specsOf built.segmentMeta.columns := fun spec hspec =>
    List.mem_of_mem_filter hspec
  constructor
  · exact (hlaid.ordered.sublist List.filter_sublist).imp fun hbefore => .inl hbefore
  · exact fun spec hspec => hlaid.aligned spec (hfilled spec hspec)
  · intro spec hspec
    rw [hmeta]
    exact (hlaid.within spec (hfilled spec hspec)).2.trans hpad.length_le
  · rw [hmeta]
    exact aligned_padToAlignment bytes
  · refine ⟨columns, hcolumns, (writeColumns_ok hwritten).2.1.imp fun column chunk hcolumn => ?_⟩
    obtain ⟨before, after, hone, hafter⟩ := hcolumn
    refine writeColumn_stores hone (hafter.trans ?_)
    rw [hall]
    exact hpad.trans (List.prefix_append _ _)
  · rw [← ColumnChunk.storedBytesOf_sum, ColumnChunk.storedBytesOf_eq, BuiltSegment.filled, sum_filled]

/-- Three blocks, a filter and bounds of pages: the first block is packed, the bounds take no bytes. -/
theorem five_numbers_laid_out : ∃ built, buildSegment emptyArchive 1 numberSchema 2 fiveNumbers blockedOptions = .ok built ∧
    LaidOut emptyArchive numberSchema fiveNumbers blockedOptions built ∧
    built.filled.map BufferSpec.extent = [⟨0, 1⟩, ⟨64, 2⟩, ⟨128, 1⟩, ⟨192, 32⟩] := by
  have hsome : ((buildSegment emptyArchive 1 numberSchema 2 fiveNumbers blockedOptions).toOption.map fun built =>
      built.filled.map BufferSpec.extent) = some [⟨0, 1⟩, ⟨64, 2⟩, ⟨128, 1⟩, ⟨192, 32⟩] := by
    decide +kernel
  obtain ⟨built, hbuilt, hextents⟩ := Option.map_eq_some_iff.mp hsome
  have hok := toOption_eq_some.mp hbuilt
  exact ⟨built, hok, buffers_disjoint_aligned hok, hextents⟩

end Built

end Segment

end LocalTables
