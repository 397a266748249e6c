import LocalTables.Columnar.ReadBack
import LocalTables.Columnar.Valuecodec
import Mathlib.Algebra.Order.BigOperators.Group.List
import Mathlib.Data.Countable.Basic
import Mathlib.Logic.Equiv.List
import Mathlib.Tactic.DeriveCountable

/-! Segments are built of any batches, and what is read back of one is what the batches held. -/

namespace LocalTables

namespace Segment

/-- What is written can be packed and archived, and the values handed to the filters are those of the array's type. Arrow has no
arrays of a time of day in a unit its width is not kept in. -/
structure Kit.Completes {ν : Type} (K : Kit) (M : Meaning ν) : Prop where
  pack : ∀ {codec bytes}, codec ≠ .none → bytes.length ≤ allocLimit → ∃ packed, K.pack codec bytes = .ok packed
  archive : ∀ found, ∃ payload, K.archive found = .ok payload
  archiveZones : ∀ zones, ∃ payload, K.archiveZones zones = .ok payload
  view : ∀ {array}, M.Valid array → (K.view array).WellTyped ∧ (K.view array).dataType = array.dataType
  time_unit : ∀ {array}, M.Valid array → array.dataType ≠ .leaf (.time32 .microsecond) ∧
    array.dataType ≠ .leaf (.time32 .nanosecond) ∧ array.dataType ≠ .leaf (.time64 .second) ∧
    array.dataType ≠ .leaf (.time64 .millisecond)

section Encode

variable {ν : Type} {K : Kit} {M : Meaning ν} {array : ArrayData}

mutual

/-- Every buffer of a column fits into memory. -/
def EncodedColumn.Small : EncodedColumn → Prop
  | ⟨_, _, _, _, _, _, _, buffers, children⟩ => (∀ buffer ∈ buffers, buffer.2.length ≤ allocLimit) ∧ AllSmall children

def AllSmall : List EncodedColumn → Prop
  | [] => True
  | child :: children => child.Small ∧ AllSmall children

end

theorem allSmall_iff {children : List EncodedColumn} : AllSmall children ↔ ∀ child ∈ children, child.Small := by
  induction children with
  | nil => exact iff_of_true trivial fun _ h => absurd h List.not_mem_nil
  | cons child children ih => rw [AllSmall, ih, List.forall_mem_cons]

/-- An array no deeper than its fuel is encoded. -/
theorem encodePlainTo_total (L : K.Lawful M) (depth : Nat) : ∀ {array : ArrayData} {zone : ZoneMap}, M.Valid array →
    array.dataType.depth ≤ depth → ∃ encoded, encodePlainTo K depth array zone = .ok encoded ∧ encoded.Small := by
  induction depth with
  | zero =>
      intro array zone _ hdepth
      exact absurd (DataType.depth_pos array.dataType) (Nat.not_lt.mpr hdepth)
  | succ depth ih =>
      intro array zone hvalid hdepth
      have hstored := L.storedArray_same hvalid
      obtain ⟨htypes, hbelow⟩ := L.children hstored.valid
      obtain ⟨children, hchildren, hall⟩ := mapM_forall₂ (f := fun child => encodePlainTo K depth child unknownZone)
        (P := fun _ encoded => encoded.Small) fun child hchild => by
          have htype : child.dataType ∈ (storedArray K array).dataType.childDataTypes := htypes ▸ List.mem_map_of_mem hchild
          have hless := DataType.depth_childDataTypes htype
          rw [hstored.dataType] at hless
          exact ih (hbelow child hchild) (by omega)
      rw [encodePlainTo, hchildren]
      refine ⟨_, rfl, ?_, allSmall_iff.mpr fun child hchild => ?_⟩
      · exact fun buffer hbuffer => L.stored_length hstored.valid hbuffer
      · obtain ⟨index, hindex⟩ := List.getElem?_of_mem hchild
        obtain ⟨_, -, hone⟩ := forall₂_getElem? hall hindex
        exact hone

theorem encodePlain_total (L : K.Lawful M) (h : M.Valid array) (zone : ZoneMap) :
    ∃ encoded, encodePlain K array zone = .ok encoded ∧ encoded.Small := encodePlainTo_total L _ h le_rfl

theorem tryDictionary_total (L : K.Lawful M) (h : M.Valid array) (zone : ZoneMap) : ∃ found, tryDictionary K array zone = .ok found := by
  unfold tryDictionary
  split
  · exact ⟨_, rfl⟩
  · next hworth =>
      rw [not_or, not_not] at hworth
      split
      · exact ⟨_, rfl⟩
      · next cast hcast =>
          split
          · exact ⟨_, rfl⟩
          · obtain ⟨column, hcolumn, -⟩ := encodePlain_total L (L.cast h hworth.1 (.inl rfl) hcast).1 zone
            rw [hcolumn]
            exact ⟨_, rfl⟩

theorem tryRunLength_total (L : K.Lawful M) (h : M.Valid array) (zone : ZoneMap) : ∃ found, tryRunLength K array zone = .ok found := by
  unfold tryRunLength
  split
  · exact ⟨_, rfl⟩
  · next hworth =>
      rw [not_or, not_not] at hworth
      split
      · exact ⟨_, rfl⟩
      · next cast hcast =>
          split
          · exact ⟨_, rfl⟩
          · obtain ⟨column, hcolumn, -⟩ := encodePlain_total L (L.cast h hworth.1 (.inr rfl) hcast).1 zone
            rw [hcolumn]
            exact ⟨_, rfl⟩

theorem candidate_total (wanted : Bool) {attempt : Except Error (Option EncodedColumn)} (h : ∃ found, attempt = .ok found) :
    ∃ found, candidate wanted attempt = .ok found := by
  obtain ⟨found, rfl⟩ := h
  cases wanted
  · exact ⟨_, rfl⟩
  · exact ⟨_, rfl⟩

/-- Whatever form a column takes, its buffers fit into memory. -/
theorem Encodes.small (L : K.Lawful M) (h : M.Valid array) {encoded : EncodedColumn} (hencoded : Encodes K array encoded) :
    encoded.Small := by
  cases hencoded with
  | plain zone _ hplain =>
      obtain ⟨other, hother, hsmall⟩ := encodePlain_total L h zone
      rwa [Except.ok.inj (hplain.symm.trans hother)]
  | recast cast zone column hencoding hworth hcast hplain hstored =>
      have hform : ReEncoded array.dataType (storedType array.dataType encoded.encoding) := by
        cases hcase : encoded.encoding with
        | plain => exact absurd hcase hencoding
        | dictionary => exact .inl rfl
        | runLength => exact .inr rfl
      obtain ⟨other, hother, hsmall⟩ := encodePlain_total L (L.cast h hworth hform hcast).1 zone
      obtain rfl := Except.ok.inj (hplain.symm.trans hother)
      cases encoded
      cases column
      obtain ⟨-, -, hbuffers, hchildren⟩ := hstored
      dsimp only at hbuffers hchildren
      rw [hbuffers, hchildren]
      exact hsmall

theorem encodeColumn_total (L : K.Lawful M) (h : M.Valid array) (options : Options) :
    ∃ encoded, encodeColumn K array options = .ok encoded ∧ encoded.Small := by
  obtain ⟨plain, hplain, -⟩ := encodePlain_total L h (zoneOf K array)
  obtain ⟨dictionary, hdictionary⟩ := candidate_total options.dictionaryEncoding
    (tryDictionary_total L h (zoneOf K array))
  obtain ⟨runs, hruns⟩ := candidate_total options.rleEncoding (tryRunLength_total L h (zoneOf K array))
  have hencoded : encodeColumn K array options = .ok (smaller (smaller plain dictionary) runs) := by
    simp only [encodeColumn, hplain, hdictionary, hruns, bind, Except.bind]
    rfl
  exact ⟨_, hencoded, (encodeColumn_encodes hencoded).small L h⟩

end Encode

section Write

variable {ν : Type} {K : Kit} {M : Meaning ν} {array : ArrayData} {options : Options}

theorem compressBuffers_total (C : K.Completes M) (codec : Codec) {buffers : List (BufferRole × Bytes)}
    (h : ∀ buffer ∈ buffers, buffer.2.length ≤ allocLimit) : ∃ stored, compressBuffers K codec buffers = .ok stored := by
  apply mapM_total
  intro buffer hbuffer
  unfold compressBuffer Kit.compress
  by_cases hcodec : codec = .none
  · rw [if_pos hcodec]
    exact ⟨_, rfl⟩
  · obtain ⟨packed, hpacked⟩ := C.pack hcodec (h buffer hbuffer)
    rw [if_neg hcodec, hpacked]
    by_cases hgains : packed.length ≥ buffer.2.length
    · simp only [bind, Except.bind, if_pos hgains]
      exact ⟨_, rfl⟩
    · simp only [bind, Except.bind, if_neg hgains]
      exact ⟨_, rfl⟩

mutual

/-- A column whose buffers fit into memory is written. -/
theorem writeChunk_total (C : K.Completes M) (codec : Codec) (side : List (BufferRole × StoredBuffer)) :
    ∀ (encoded : EncodedColumn) (bytes : Bytes), encoded.Small →
      ∃ bytes' chunk, writeChunk K codec side encoded bytes = .ok (bytes', chunk)
  | ⟨_, _, _, _, _, _, _, buffers, children⟩, bytes, h => by
      obtain ⟨stored, hstored⟩ := compressBuffers_total C codec h.1
      obtain ⟨bytes', chunks, hchildren⟩ := writeChildren_total C codec children ((stored ++ side).foldl (place K) (bytes, [])).1 h.2
      rw [writeChunk, hstored]
      simp only [bind, Except.bind, hchildren]
      exact ⟨_, _, rfl⟩

theorem writeChildren_total (C : K.Completes M) (codec : Codec) : ∀ (children : List EncodedColumn) (bytes : Bytes),
    AllSmall children → ∃ bytes' chunks, writeChildren K codec children bytes = .ok (bytes', chunks)
  | [], bytes, _ => ⟨bytes, [], by rw [writeChildren]; rfl⟩
  | child :: children, bytes, h => by
      obtain ⟨middle, chunk, hchunk⟩ := writeChunk_total C codec [] child bytes h.1
      obtain ⟨bytes', chunks, hchunks⟩ := writeChildren_total C codec children middle h.2
      rw [writeChildren, hchunk]
      simp only [bind, Except.bind, hchunks]
      exact ⟨_, _, rfl⟩

end

/-- The rows of the blocks are rows of the array. -/
theorem blockRanges_inside {blockRows rows : Nat} (left : Nat) : ∀ {start : Nat}, ∀ range ∈ blockRanges blockRows rows start left,
    range.1 + range.2 ≤ rows := by
  induction left with
  | zero => exact fun range hrange => absurd hrange List.not_mem_nil
  | succ left ih =>
      intro start range hrange
      rw [blockRanges] at hrange
      split at hrange
      · rcases List.mem_cons.mp hrange with rfl | hrange
        · dsimp only
          omega
        · exact ih range hrange
      · cases hrange

theorem writeBlocks_total (L : K.Lawful M) (C : K.Completes M) (h : M.Valid array) (codec : Codec) (options : Options)
    {ranges : List (Nat × Nat)} (hranges : ∀ range ∈ ranges, range.1 + range.2 ≤ array.len) :
    ∀ written : Bytes × List ColumnChunk, ∃ written', ranges.foldlM (writeBlock K array codec options) written = .ok written' := by
  induction ranges with
  | nil => exact fun written => ⟨written, rfl⟩
  | cons range ranges ih =>
      intro written
      obtain ⟨piece, hpiece, hsmall⟩ := encodeColumn_total L (L.slice h (hranges range List.mem_cons_self)).valid options
      obtain ⟨bytes, block, hblock⟩ := writeChunk_total C codec [] piece written.1 hsmall
      have hone : writeBlock K array codec options written range = .ok (bytes, written.2 ++ [block]) := by
        unfold writeBlock
        simp only [bind, Except.bind, hpiece, hblock]
        rfl
      rw [List.foldlM_cons, hone]
      exact ih (fun range hrange => hranges range (List.mem_cons_of_mem _ hrange)) _

theorem writeBlockedChunk_total (L : K.Lawful M) (C : K.Completes M) (h : M.Valid array) {encoded : EncodedColumn}
    (hsmall : encoded.Small) (codec : Codec) (options : Options) (side : List (BufferRole × StoredBuffer)) (bytes : Bytes) :
    ∃ bytes' chunk, writeBlockedChunk K array encoded codec options side bytes = .ok (bytes', chunk) := by
  unfold writeBlockedChunk
  split
  · exact writeChunk_total C codec side encoded bytes hsmall
  · have hinside : ∀ range ∈ blockRanges options.compressionBlockRows array.len 0 array.len,
        range.1 + range.2 ≤ array.len := blockRanges_inside array.len
    obtain ⟨⟨middle, blocks⟩, hblocks⟩ := writeBlocks_total L C h codec options hinside (bytes, [])
    obtain ⟨bytes', outer, houter⟩ := writeChunk_total C codec side { encoded with buffers := [], children := [] } middle
      ⟨fun _ hbuffer => absurd hbuffer List.not_mem_nil, trivial⟩
    simp only [bind, Except.bind, hblocks, houter]
    exact ⟨_, _, rfl⟩

end Write

section Columns

variable {ν : Type} {K : Kit} {M : Meaning ν} {array : ArrayData} {field : Field DataType} {options : Options}

/-- A column of its type is hashed to its end. -/
theorem bloom_total {H : Hashing} {array : ArrowArray} (htyped : array.WellTyped)
    (hunit : array.dataType ≠ .leaf (.time32 .microsecond) ∧ array.dataType ≠ .leaf (.time32 .nanosecond) ∧
      array.dataType ≠ .leaf (.time64 .second) ∧ array.dataType ≠ .leaf (.time64 .millisecond)) (bitsPerValue : Nat) :
    ∃ filter, BloomFilter.build H array bitsPerValue = .ok filter := by
  unfold BloomFilter.build
  split
  · exact ⟨_, rfl⟩
  · next hsupported =>
      rw [not_or, not_not] at hsupported
      have hleaf : ∃ type, array.dataType = .leaf type ∧ type.keyForm ≠ none := by
        have hencodable : isEncodable array.dataType = true := hsupported.1
        cases htype : array.dataType with
        | leaf type =>
            rw [htype] at hencodable hunit
            refine ⟨type, rfl, Option.isSome_iff_ne_none.mp ?_⟩
            rcases (isEncodable_iff type).mp hencodable with hform | rfl | rfl | rfl | rfl
            · exact hform
            · exact absurd rfl hunit.1
            · exact absurd rfl hunit.2.1
            · exact absurd rfl hunit.2.2.1
            · exact absurd rfl hunit.2.2.2
        | _ =>
            rw [htype] at hencodable
            cases hencodable
      obtain ⟨type, htype, hkey⟩ := hleaf
      have hhashes : ∀ (rows : List Nat) (hashes : List UInt64), (∀ row ∈ rows, row < array.len) →
          ∃ hashes', rows.foldlM (fun hashes row => if array.isNull row then return hashes else do
            let bytes ← encodeValue array.dataType (array.value row)
            return hashes.insert (H.checksum bytes)) hashes = (.ok hashes' : Except Error (List UInt64)) := by
        intro rows
        induction rows with
        | nil => exact fun hashes _ => ⟨hashes, rfl⟩
        | cons row rows ih =>
            intro hashes hrows
            have hrest : ∀ other ∈ rows, other < array.len := fun other hother => hrows other (List.mem_cons_of_mem _ hother)
            rw [List.foldlM_cons]
            by_cases hnull : array.isNull row = true
            · rw [if_pos hnull]
              exact ih hashes hrest
            · obtain ⟨hencoded, -⟩ := encodeAt_eq hkey htype htyped (hrows row List.mem_cons_self)
              unfold encodeAt at hencoded
              rw [if_neg hnull] at hencoded
              rw [if_neg hnull]
              cases hvalue : array.value row with
              | none =>
                  rw [hvalue] at hencoded
                  cases hencoded
              | some value =>
                  rw [hvalue] at hencoded
                  dsimp only at hencoded
                  simp only [bind, Except.bind, hencoded]
                  exact ih _ hrest
      obtain ⟨hashes, hfold⟩ := hhashes (List.range array.len) [] fun row hrow => List.mem_range.mp hrow
      unfold BloomFilter.hashesOf
      rw [hfold]
      simp only [bind, Except.bind]
      split
      · exact ⟨_, rfl⟩
      · exact ⟨_, rfl⟩

theorem writeColumn_total (L : K.Lawful M) (C : K.Completes M) (h : M.Valid array) (field : Field DataType) (options : Options)
    (bytes : Bytes) : ∃ bytes' chunk, writeColumn K array field options bytes = .ok (bytes', chunk) := by
  obtain ⟨encoded, hencoded, hsmall⟩ : ∃ encoded, columnEncoding K array (options.compression.codecFor field.dataType) options =
      .ok encoded ∧ encoded.Small := by
    unfold columnEncoding
    split
    · exact ⟨_, rfl, fun _ hbuffer => absurd hbuffer List.not_mem_nil, trivial⟩
    · exact encodeColumn_total L h options
  obtain ⟨bloom, hbloom⟩ : ∃ bloom, columnBloom K array field options = .ok bloom := by
    unfold columnBloom
    split
    · obtain ⟨htyped, htype⟩ := C.view h
      exact bloom_total htyped (htype ▸ C.time_unit h) _
    · exact ⟨_, rfl⟩
  obtain ⟨zones, hzones⟩ : ∃ zones, zonesBuffer K (pageZones K.aggregates (K.view array) options.pageRows) = .ok zones := by
    unfold zonesBuffer
    split
    · next pages _ =>
        obtain ⟨payload, hpayload⟩ := C.archiveZones pages
        rw [hpayload]
        exact ⟨_, rfl⟩
    · exact ⟨_, rfl⟩
  unfold writeColumn
  simp only [bind, Except.bind, hencoded, hbloom, hzones]
  exact writeBlockedChunk_total L C h hsmall _ options _ bytes

theorem writeColumns_total (L : K.Lawful M) (C : K.Completes M) (options : Options) :
    ∀ {columns : List (ArrayData × Field DataType)}, (∀ column ∈ columns, M.Valid column.1) → ∀ bytes : Bytes,
      ∃ bytes' chunks, writeColumns K options columns bytes = .ok (bytes', chunks)
  | [], _, bytes => ⟨bytes, [], by rw [writeColumns]; rfl⟩
  | column :: columns, h, bytes => by
      obtain ⟨middle, chunk, hchunk⟩ := writeColumn_total L C (h column List.mem_cons_self) column.2 options bytes
      obtain ⟨bytes', chunks, hchunks⟩ := writeColumns_total L C options
        (fun other hother => h other (List.mem_cons_of_mem _ hother)) middle
      rw [writeColumns, hchunk]
      simp only [bind, Except.bind, hchunks]
      exact ⟨_, _, rfl⟩

end Columns

section Build

variable {ν : Type} {K : Kit} {M : Meaning ν} {schema readSchema : Schema DataType} {batches : List RecordBatch}

/-- What is asked of batches that make one segment: they have the schema, of types there are arrays of, and what they hold in a
column fits into one array. -/
structure OneSegment (M : Meaning ν) (schema : Schema DataType) (batches : List RecordBatch) : Prop where
  fields : ∀ batch ∈ batches, batch.schema.fields = schema.fields
  sound : ∀ batch ∈ batches, batch.Sound M schema
  known : ∀ field ∈ schema.fields, M.Known field.dataType
  fits : ∀ index field, schema.fields[index]? = some field → M.Fits field.dataType (valuesAt M batches index)

theorem concatColumns_total (L : K.Lawful M) (h : OneSegment M schema batches) :
    ∃ columns, concatColumns K schema batches = .ok columns := by
  apply mapM_total
  intro entry hentry
  have hfield := List.mem_zipIdx_iff_getElem?.mp hentry
  obtain ⟨array, harray⟩ : ∃ array, concatColumn K batches entry.2 entry.1.dataType = .ok array := by
    unfold concatColumn
    split
    · exact ⟨_, rfl⟩
    · next batch =>
        obtain ⟨array, harray, -⟩ := column_sound (h.sound batch (List.mem_singleton_self batch)) hfield
        exact ⟨array, harray⟩
    · next hnone hone =>
        have hcolumn : ∀ batch ∈ batches, ∃ array, batch.column entry.2 = .ok array := by
          intro batch hbatch
          obtain ⟨array, harray, -⟩ := column_sound (h.sound batch hbatch) hfield
          exact ⟨array, harray⟩
        obtain ⟨parts, hparts⟩ := mapM_total hcolumn
        obtain ⟨hsound, hflat⟩ := columns_sound h.sound hfield hparts
        have hnonempty : parts ≠ [] := by
          rintro rfl
          exact hnone (List.length_eq_zero_iff.mp (mapM_ok hparts).length_eq)
        obtain ⟨joined, hjoined⟩ := L.concat_fits hnonempty (fun part hpart => ⟨(hsound part hpart).1, (hsound part hpart).2.1⟩)
          (hflat ▸ h.fits entry.2 entry.1 hfield)
        simp only [bind, Except.bind, hparts, hjoined]
        exact ⟨_, rfl⟩
  simp only [bind, Except.bind, harray]
  exact ⟨_, rfl⟩

/-- Batches of a schema make a segment under any options. -/
theorem buildSegment_total (L : K.Lawful M) (C : K.Completes M) (h : OneSegment M schema batches) (options : Options)
    (segmentId fingerprint : Nat) : ∃ built, buildSegment K segmentId schema fingerprint batches options = .ok built := by
  have hsame : (batches.any fun batch => batch.schema.fields ≠ schema.fields) = false := by
    rw [List.any_eq_false]
    intro batch hbatch
    simpa using h.fields batch hbatch
  obtain ⟨columns, hcolumns⟩ := concatColumns_total L h
  have hvalid : ∀ column ∈ columns, M.Valid column.1 := by
    intro column hcolumn
    obtain ⟨index, hindex⟩ := List.getElem?_of_mem hcolumn
    obtain ⟨hfield, hconcat⟩ := concatColumns_getElem? hcolumns hindex
    exact (concatColumn_sound L h.sound hfield (h.known _ (List.mem_of_getElem? hfield)) hconcat).1.valid
  obtain ⟨bytes, chunks, hwritten⟩ := writeColumns_total L C options hvalid []
  unfold buildSegment
  rw [hsame, if_neg Bool.false_ne_true]
  simp only [bind, Except.bind, hcolumns, hwritten]
  obtain ⟨payload, hpayload⟩ := C.archive ⟨segmentId, (batches.map RecordBatch.numRows).sum, fingerprint,
    storedPageRows (batches.map RecordBatch.numRows).sum options.pageRows,
    if chunks.any fun chunk => ¬chunk.blocks.isEmpty then options.compressionBlockRows else 0, chunks⟩
  rw [hpayload]
  exact ⟨_, rfl⟩

/-- Batches make a segment, and the segment reads back as the batches one after the other, with nulls in the columns it
predates. -/
theorem segments_round_trip (L : K.Lawful M) (C : K.Completes M) (h : OneSegment M schema batches) (options : Options)
    (segmentId fingerprint : Nat) :
    ∃ built, buildSegment K segmentId schema fingerprint batches options = .ok built ∧
      (built.bytes.length < 2 ^ 63 → ∀ readSchema, Extends M (rowsOf batches) schema readSchema →
        ∀ layout, layoutAccepts layout schema.fields.length fingerprint = true → ∀ offset,
          ∃ reader columns, SegmentReader.new K built.bytes offset (built.placed offset).2 readSchema layout = .ok reader ∧
            reader.read K none = .ok ⟨⟨readSchema.fields, []⟩, columns, rowsOf batches⟩ ∧
            columns.length = readSchema.fields.length ∧
            ∀ index field, readSchema.fields[index]? = some field → ∃ column, columns[index]? = some column ∧
              HoldsValues M field (columnValues M schema batches index) column) := by
  obtain ⟨built, hbuilt⟩ := buildSegment_total L C h options segmentId fingerprint
  refine ⟨built, hbuilt, fun hbytes readSchema hextends layout haccepts offset => ?_⟩
  have hwords : built.bytes.length < usizeLimit := hbytes.trans (by decide)
  have hindices : ∀ index ∈ (built.reader readSchema).indices none, index < (built.reader readSchema).schema.fields.length :=
    fun index hindex => List.mem_range.mp hindex
  obtain ⟨fields, hfields, hplaces⟩ := projectedFields_ok hindices
  have hlen : fields.length = readSchema.fields.length := by
    rw [← hplaces.length_eq]
    exact List.length_range
  have hentry : ∀ {index}, index < readSchema.fields.length → ((built.reader readSchema).indices none)[index]? = some index :=
    fun hindex => (List.getElem?_range hindex).trans rfl
  obtain rfl : fields = readSchema.fields := by
    apply List.ext_getElem?
    intro index
    by_cases hindex : index < readSchema.fields.length
    · obtain ⟨field, hfield, hat⟩ := forall₂_getElem?_left hplaces (hentry hindex)
      rw [hfield]
      exact hat.symm
    · rw [List.getElem?_eq_none (by omega), List.getElem?_eq_none (by omega)]
  have hread : (built.reader readSchema).read K none = _ := read_built L hbuilt hwords none
  obtain ⟨columns, hcolumns, hholds⟩ := readRows_built L h.sound h.known hextends hbuilt hbytes hfields
    (Nat.zero_add (rowsOf batches)).le
  refine ⟨built.reader readSchema, columns, new_built L hbuilt hwords readSchema haccepts offset, hread.trans hcolumns, ?_, ?_⟩
  · rw [← hholds.length_eq, List.length_zip, hplaces.length_eq, Nat.min_self]
  · intro index field hfield
    have hindex : index < readSchema.fields.length := (List.getElem?_eq_some_iff.mp hfield).1
    obtain ⟨column, hcolumn, hone⟩ := forall₂_getElem?_left (a := (index, field)) hholds
      (List.getElem?_zip_eq_some.mpr ⟨hentry hindex, hfield⟩)
    refine ⟨column, hcolumn, ?_⟩
    dsimp only at hone
    rwa [List.drop_zero, List.take_of_length_le (length_columnValues L h.sound index).le] at hone

/-- Two batches with the same columns, of the same types and values. -/
structure RecordBatch.SameRows (M : Meaning ν) (batch other : RecordBatch) : Prop where
  schema : other.schema = batch.schema
  numRows : other.numRows = batch.numRows
  columns : List.Forall₂ (fun column column' => column'.dataType = column.dataType ∧ M.values column' = M.values column)
    batch.columns other.columns

/-- Decoding some rows gives those rows of what decoding everything gives, wherever they fall. -/
theorem range_reads_slice (L : K.Lawful M) (hbatches : ∀ batch ∈ batches, batch.Sound M schema)
    (hknown : ∀ field ∈ schema.fields, M.Known field.dataType) (hextends : Extends M (rowsOf batches) schema readSchema)
    (h : buildSegment K segmentId schema fingerprint batches options = .ok built) (hbytes : built.bytes.length < 2 ^ 63)
    {layout : List Nat} (haccepts : layoutAccepts layout schema.fields.length fingerprint = true) (offset : Nat)
    {projection : Option (List Nat)} (hprojection : ∀ indices, projection = some indices →
      ∀ index ∈ indices, index < readSchema.fields.length) :
    ∃ reader all, SegmentReader.new K built.bytes offset (built.placed offset).2 readSchema layout = .ok reader ∧
      reader.read K projection = .ok all ∧
      ∀ start len, start + len ≤ built.rowCount →
        ∃ part, reader.readRows K projection start len = .ok part ∧ (all.slice K start len).SameRows M part := by
  have hnew := new_built L h (hbytes.trans (by decide)) readSchema haccepts offset
  have hread : (built.reader readSchema).read K projection = _ := read_built L h (hbytes.trans (by decide)) projection
  have hcount : built.rowCount = rowsOf batches := by
    obtain ⟨_, _, _, -, -, -, -, -, hcount, -⟩ := buildSegment_ok h
    exact hcount
  have hindices : ∀ index ∈ (built.reader readSchema).indices projection,
      index < (built.reader readSchema).schema.fields.length := by
    intro index hindex
    cases projection with
    | none => exact List.mem_range.mp hindex
    | some indices => exact hprojection indices rfl index hindex
  obtain ⟨fields, hfields, -⟩ := projectedFields_ok hindices
  obtain ⟨columns, hall, hholds⟩ := readRows_built L hbatches hknown hextends h hbytes hfields (Nat.zero_add (rowsOf batches)).le
  refine ⟨built.reader readSchema, _, hnew, hread.trans hall, fun start len hinside => ?_⟩
  rw [hcount] at hinside
  obtain ⟨parts, hpart, hparts⟩ := readRows_built L hbatches hknown hextends h hbytes hfields hinside
  refine ⟨_, hpart, rfl, rfl, ?_⟩
  rw [RecordBatch.slice, List.forall₂_map_left_iff]
  clear hall hpart
  generalize ((built.reader readSchema).indices projection).zip fields = entries at hholds hparts
  induction hholds generalizing parts with
  | nil =>
      cases hparts
      exact .nil
  | @cons entry column _ _ hone _ ih =>
      cases hparts with
      | cons hother hparts =>
          refine .cons ?_ (ih _ hparts)
          have hvalues : M.values column = columnValues M schema batches entry.1 := by
            rw [hone.values, List.drop_zero]
            exact List.take_of_length_le (length_columnValues L hbatches entry.1).le
          have hlen : column.len = rowsOf batches := by
            rw [← L.length_values hone.valid, hvalues, length_columnValues L hbatches]
          have hslice := L.slice hone.valid (hinside.trans hlen.ge)
          constructor
          · rw [hother.dataType, hslice.dataType, hone.dataType]
          · rw [hother.values, hslice.values, hvalues]

end Build

section Witness

/-! An archive that gives back whatever metadata it is given, for columns of numbers. -/

deriving instance Countable for Encoding
deriving instance Countable for Codec
deriving instance Countable for BufferRole
instance countable_uint64 : Countable UInt64 := Function.Injective.countable (f := UInt64.toNat) fun _ _ h => UInt64.toNat_inj.mp h
instance countable_uint8 : Countable UInt8 := Function.Injective.countable (f := UInt8.toNat) fun _ _ h => UInt8.toNat_inj.mp h
deriving instance Countable for Extent
deriving instance Countable for BufferSpec
deriving instance Countable for ZoneMap
deriving instance DecidableEq for ZoneMap

/-- What a chunk says of itself, without the chunks it holds. -/
structure Facts where
  encoding : Encoding
  codec : Codec
  len : Nat
  nullCount : Nat
  dictLen : Nat
  runCount : Nat
  offset : Nat
  buffers : List BufferSpec
  zone : ZoneMap
  blockRows : Nat
  deriving DecidableEq

deriving instance Countable for Facts

mutual

/-- A chunk written out, each list with an end. -/
def ColumnChunk.tokens : ColumnChunk → List (Option Facts)
  | ⟨encoding, codec, len, nullCount, dictLen, runCount, offset, buffers, children, zone, blockRows, blocks⟩ =>
      some ⟨encoding, codec, len, nullCount, dictLen, runCount, offset, buffers, zone, blockRows⟩ ::
        (tokensOf children ++ tokensOf blocks)

def tokensOf : List ColumnChunk → List (Option Facts)
  | [] => [none]
  | chunk :: chunks => chunk.tokens ++ tokensOf chunks

end

mutual

theorem ColumnChunk.tokens_inj : ∀ (chunk other : ColumnChunk) {rest rest' : List (Option Facts)},
    chunk.tokens ++ rest = other.tokens ++ rest' → chunk = other ∧ rest = rest'
  | ⟨_, _, _, _, _, _, _, _, children, _, _, blocks⟩, ⟨_, _, _, _, _, _, _, _, children', _, _, blocks'⟩, rest, rest', h => by
      rw [ColumnChunk.tokens, ColumnChunk.tokens, List.cons_append, List.cons_append, List.cons.injEq, Option.some.injEq] at h
      obtain ⟨hfacts, h⟩ := h
      rw [List.append_assoc, List.append_assoc] at h
      obtain ⟨rfl, hblocks⟩ := tokensOf_inj children children' h
      obtain ⟨rfl, hrest⟩ := tokensOf_inj blocks blocks' hblocks
      cases hfacts
      exact ⟨rfl, hrest⟩

theorem tokensOf_inj : ∀ (chunks others : List ColumnChunk) {rest rest' : List (Option Facts)},
    tokensOf chunks ++ rest = tokensOf others ++ rest' → chunks = others ∧ rest = rest'
  | [], [], rest, rest', h => ⟨rfl, by simpa [tokensOf] using h⟩
  | [], ⟨_, _, _, _, _, _, _, _, children, _, _, blocks⟩ :: others, rest, rest', h => by
      simp [tokensOf, ColumnChunk.tokens] at h
  | ⟨_, _, _, _, _, _, _, _, children, _, _, blocks⟩ :: chunks, [], rest, rest', h => by
      simp [tokensOf, ColumnChunk.tokens] at h
  | chunk :: chunks, other :: others, rest, rest', h => by
      rw [tokensOf, tokensOf, List.append_assoc, List.append_assoc] at h
      obtain ⟨rfl, hchunks⟩ := ColumnChunk.tokens_inj chunk other h
      obtain ⟨rfl, hrest⟩ := tokensOf_inj chunks others hchunks
      exact ⟨rfl, hrest⟩

end

instance : Countable ColumnChunk := Function.Injective.countable (f := ColumnChunk.tokens) fun chunk other h =>
  (ColumnChunk.tokens_inj chunk other (congrArg (· ++ []) h)).1

def SegmentMeta.tokens (found : SegmentMeta) : (Nat × Nat × Nat × Nat × Nat) × List (Option Facts) :=
  ((found.segmentId, found.rowCount, found.schemaFingerprint, found.pageRows, found.blockRows), tokensOf found.columns)

theorem SegmentMeta.tokens_inj : Function.Injective SegmentMeta.tokens := by
  rintro ⟨_, _, _, _, _, columns⟩ ⟨_, _, _, _, _, columns'⟩ h
  obtain ⟨hnumbers, hcolumns⟩ := Prod.mk.inj h
  simp only [Prod.mk.injEq] at hnumbers
  obtain ⟨rfl, rfl, rfl, rfl, rfl⟩ := hnumbers
  rw [(tokensOf_inj columns columns' (congrArg (· ++ []) hcolumns)).1]

instance : Countable SegmentMeta := SegmentMeta.tokens_inj.countable

/-- The metadata of the five numbers. -/
def fiveNumbersMeta : SegmentMeta :=
  match buildSegment emptyArchive 1 numberSchema 2 fiveNumbers blockedOptions with
  | .ok built => built.segmentMeta
  | .error _ => ⟨0, 0, 0, 0, 0, []⟩

/-- How many blocks there are. -/
def blockCount (found : SegmentMeta) : Nat := (found.columns.map fun chunk => chunk.blocks.length).sum

/-- Bytes for every metadata, no two with as many. -/
noncomputable def archiveBytes (found : SegmentMeta) : Bytes :=
  if found.tokens = fiveNumbersMeta.tokens then List.replicate 64 0
  else List.replicate (65 + Nat.pair (Classical.choose (exists_injective_nat SegmentMeta) found) (blockCount found * 16)) 0

theorem archiveBytes_inj : Function.Injective archiveBytes := by
  intro found other h
  have hlen := congrArg List.length h
  unfold archiveBytes at hlen
  split at hlen <;> split at hlen <;> simp only [List.length_replicate] at hlen
  · next hfound hother => exact SegmentMeta.tokens_inj (hfound.trans hother.symm)
  · omega
  · omega
  · have hpair := Nat.pair_eq_pair.mp (Nat.add_left_cancel hlen)
    exact Classical.choose_spec (exists_injective_nat SegmentMeta) hpair.1

theorem length_archiveBytes (found : SegmentMeta) {chunk : ColumnChunk} (hchunk : chunk ∈ found.columns) :
    chunk.blocks.length * 16 ≤ (archiveBytes found).length := by
  have hsome : chunk.blocks.length ≤ blockCount found :=
    List.single_le_sum (fun _ _ => Nat.zero_le _) _ (List.mem_map_of_mem (f := fun chunk => chunk.blocks.length) hchunk)
  unfold archiveBytes
  split
  · next hsame =>
      obtain rfl := SegmentMeta.tokens_inj hsame
      have hfew : blockCount fiveNumbersMeta = 3 := by decide +kernel
      rw [List.length_replicate]
      omega
  · have hright := Nat.right_le_pair (Classical.choose (exists_injective_nat SegmentMeta) found) (blockCount found * 16)
    rw [List.length_replicate]
    omega

open Classical in
/-- The metadata some bytes were made of. -/
noncomputable def accessBytes (payload : Bytes) : Except Error SegmentMeta :=
  if h : ∃ found, archiveBytes found = payload then .ok h.choose else .error (.corrupt "not an archive")

theorem accessBytes_archiveBytes (found : SegmentMeta) : accessBytes (archiveBytes found) = .ok found := by
  have hsome : ∃ other, archiveBytes other = archiveBytes found := ⟨found, rfl⟩
  rw [accessBytes, dif_pos hsome, archiveBytes_inj hsome.choose_spec]

noncomputable def numberKit : Kit :=
  plainKit (fun found => .ok (archiveBytes found)) accessBytes (fun _ => .ok []) fun _ => .ok []

theorem numberKit_lawful : numberKit.Lawful plainMeaning :=
  plainKit_lawful (fun h => Except.ok.inj h ▸ accessBytes_archiveBytes _) fun h _ hchunk =>
    Except.ok.inj h ▸ length_archiveBytes _ hchunk

/-- An archive of one metadata and no other. -/
def soleKit (known : SegmentMeta) : Kit :=
  plainKit (fun found => if found.tokens = known.tokens then .ok [] else .error (.corrupt "another metadata"))
    (fun _ => .ok known) (fun _ => .ok []) fun _ => .ok []

theorem soleKit_lawful {known : SegmentMeta} (hwhole : (known.columns.all fun chunk => chunk.blocks.isEmpty) = true) :
    (soleKit known).Lawful plainMeaning := by
  have hsame : ∀ {found : SegmentMeta} {payload : Bytes}, (soleKit known).archive found = .ok payload → found = known := by
    intro found payload h
    unfold soleKit plainKit at h
    dsimp only at h
    split at h
    · next htokens => exact SegmentMeta.tokens_inj htokens
    · cases h
  refine plainKit_lawful (fun h => by rw [hsame h]) fun h chunk hchunk => ?_
  rw [hsame h] at hchunk
  rw [List.isEmpty_iff.mp (List.all_eq_true.mp hwhole chunk hchunk)]
  exact Nat.zero_le _

theorem numberKit_completes : numberKit.Completes plainMeaning where
  pack _ _ := ⟨_, rfl⟩
  archive _ := ⟨_, rfl⟩
  archiveZones _ := ⟨_, rfl⟩
  view h := by
    obtain ⟨bytes, -, rfl⟩ | ⟨rows, -, rfl⟩ := h
    · refine ⟨fun value hvalue v hv => ?_, rfl⟩
      obtain ⟨byte, -, rfl⟩ := List.mem_map.mp hvalue
      obtain rfl := Option.some.inj hv
      exact ⟨1, rfl, byte.toNat_lt⟩
    · refine ⟨fun value hvalue v hv => ?_, rfl⟩
      rw [List.eq_of_mem_replicate hvalue] at hv
      cases hv
  time_unit h := by
    obtain ⟨bytes, -, rfl⟩ | ⟨rows, -, rfl⟩ := h
    · exact ⟨nofun, nofun, nofun, nofun⟩
    · exact ⟨nofun, nofun, nofun, nofun⟩

theorem fiveNumbers_oneSegment : OneSegment plainMeaning numberSchema fiveNumbers where
  fields batch hbatch := by
    rcases List.mem_cons.mp hbatch with rfl | hbatch
    · rfl
    · rw [List.mem_singleton.mp hbatch]
  sound batch hbatch := by
    rcases List.mem_cons.mp hbatch with rfl | hbatch
    · exact .cons ⟨plain_numbers (by decide), rfl, rfl, fun _ => rfl⟩ .nil
    · rw [List.mem_singleton.mp hbatch]
      exact .cons ⟨plain_numbers (by decide), rfl, rfl, fun _ => rfl⟩ .nil
  known field hfield := by
    rw [List.mem_singleton.mp hfield]
    exact ⟨numbers [], plain_numbers (Nat.zero_le _), rfl⟩
  fits index field hfield := by
    cases index with
    | zero =>
        rw [← Option.some.inj hfield]
        exact .inl ⟨rfl, by decide, by decide⟩
    | succ index => cases hfield

theorem fiveNumbers_built : ∃ built, buildSegment numberKit 1 numberSchema 2 fiveNumbers blockedOptions = .ok built ∧
    built.bytes.length = 352 ∧ built.rowCount = 5 ∧ built.segmentMeta = fiveNumbersMeta := by
  have hsizes : ((buildSegment numberKit 1 numberSchema 2 fiveNumbers blockedOptions).toOption.map fun built =>
      (built.bytes.length, built.rowCount)) = some (352, 5) := by
    decide +kernel
  have htokens : ((buildSegment numberKit 1 numberSchema 2 fiveNumbers blockedOptions).toOption.map fun built =>
      built.segmentMeta.tokens) = some fiveNumbersMeta.tokens := by
    decide +kernel
  obtain ⟨built, hbuilt, hsizes⟩ := Option.map_eq_some_iff.mp hsizes
  obtain ⟨hlen, hrows⟩ := Prod.mk.inj hsizes
  rw [hbuilt] at htokens
  exact ⟨built, toOption_eq_some.mp hbuilt, hlen, hrows, SegmentMeta.tokens_inj (Option.some.inj htokens)⟩

/-- The numbers, and a column added later. -/
def grownSchema : Schema DataType := ⟨[⟨"value", .leaf .int8, false⟩, ⟨"added", .leaf .null, true⟩], []⟩

theorem numberSchema_extends : Extends plainMeaning (rowsOf fiveNumbers) numberSchema grownSchema where
  fields := rfl
  nullable field hfield := by
    rw [List.mem_singleton.mp hfield]
  nulls field hfield := by
    rw [List.mem_singleton.mp hfield]
    exact .inr ⟨rfl, fun value hvalue => List.eq_of_mem_replicate hvalue, by decide⟩

/-- The five numbers come back, with as many nulls beside them. -/
theorem five_numbers_round_trip : ∃ built reader columns,
    buildSegment numberKit 1 numberSchema 2 fiveNumbers blockedOptions = .ok built ∧
      SegmentReader.new numberKit built.bytes 0 (built.placed 0).2 grownSchema [0, 2, 3] = .ok reader ∧
      reader.read numberKit none = .ok ⟨⟨grownSchema.fields, []⟩, columns, 5⟩ ∧
      columns.map plainMeaning.values = [[some 7, some 7, some 7, some 1, some 2], List.replicate 5 none] := by
  obtain ⟨built, hbuilt, hreads⟩ := segments_round_trip numberKit_lawful numberKit_completes fiveNumbers_oneSegment
    blockedOptions 1 2
  obtain ⟨other, hother, hlen, -⟩ := fiveNumbers_built
  obtain rfl := Except.ok.inj (hbuilt.symm.trans hother)
  obtain ⟨reader, columns, hnew, hread, hcount, hcolumns⟩ := hreads (hlen ▸ by decide) grownSchema numberSchema_extends [0, 2, 3]
    rfl 0
  refine ⟨built, reader, columns, hbuilt, hnew, hread, ?_⟩
  obtain ⟨first, hfirst, hfirstHolds⟩ := hcolumns 0 _ rfl
  obtain ⟨second, hsecond, hsecondHolds⟩ := hcolumns 1 _ rfl
  match columns, hcount with
  | [_, _], _ =>
      obtain rfl := Option.some.inj hfirst
      obtain rfl := Option.some.inj hsecond
      rw [List.map_cons, List.map_singleton, hfirstHolds.values, hsecondHolds.values]
      rfl

/-- The second to the fourth number, over the end of the first block. -/
theorem three_of_five_numbers : ∃ built reader all part,
    buildSegment numberKit 1 numberSchema 2 fiveNumbers blockedOptions = .ok built ∧
      SegmentReader.new numberKit built.bytes 0 (built.placed 0).2 grownSchema [0, 2, 3] = .ok reader ∧
      reader.read numberKit (some [1, 0]) = .ok all ∧ reader.readRows numberKit (some [1, 0]) 1 3 = .ok part ∧
      (all.slice numberKit 1 3).SameRows plainMeaning part := by
  obtain ⟨built, hbuilt, hlen, hrows, -⟩ := fiveNumbers_built
  have haccepts : layoutAccepts [0, 2, 3] numberSchema.fields.length 2 = true := rfl
  have hprojection : ∀ indices, some [1, 0] = some indices → ∀ index ∈ indices, index < grownSchema.fields.length := by
    intro indices hindices index hindex
    obtain rfl := Option.some.inj hindices
    simp only [List.mem_cons, List.not_mem_nil, or_false] at hindex
    rcases hindex with rfl | rfl
    · decide
    · decide
  obtain ⟨reader, all, hnew, hread, hranges⟩ := range_reads_slice numberKit_lawful fiveNumbers_oneSegment.sound
    fiveNumbers_oneSegment.known numberSchema_extends hbuilt (hlen ▸ by decide) haccepts 0 hprojection
  obtain ⟨part, hpart, hsame⟩ := hranges 1 3 (hrows ▸ by decide)
  exact ⟨built, reader, all, part, hbuilt, hnew, hread, hpart, hsame⟩

end Witness

end Segment

end LocalTables
