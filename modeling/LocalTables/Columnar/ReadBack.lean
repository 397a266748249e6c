import LocalTables.Columnar.Ranges

/-! Segments read back. What is read of a column, whole or in part, is what its batches held of it; a column the segment predates
reads as nulls. -/

namespace LocalTables

namespace Segment

open Outcome

variable {ν : Type} {K : Kit} {M : Meaning ν} {whole : Bytes}

section Columns

variable {array : ArrayData} {field : Field DataType} {options : Options} {bytes bytes' : Bytes} {chunk : ColumnChunk}

theorem beside_sideBuffers {bloom trigram : Option BloomFilter} {pages : Option (List ZoneMap)}
    {zones : List (BufferRole × StoredBuffer)} (h : zonesBuffer K pages = .ok zones) :
    Beside ((filterBuffer .bloom bloom ++ filterBuffer .trigram trigram ++ zones).map Prod.fst) := by
  have hfilter : ∀ {role : BufferRole} {filter : Option BloomFilter} {found}, found ∈ (filterBuffer role filter).map Prod.fst →
      found = role := by
    intro role filter found hfound
    cases filter with
    | none => cases hfound
    | some filter => exact List.mem_singleton.mp hfound
  intro role hrole
  rw [List.map_append, List.map_append] at hrole
  rcases List.mem_append.mp hrole with hrole | hrole
  · rcases List.mem_append.mp hrole with hrole | hrole
    · exact hfilter hrole ▸ ⟨nofun, nofun⟩
    · exact hfilter hrole ▸ ⟨nofun, nofun⟩
  · unfold zonesBuffer at h
    cases pages with
    | none =>
        obtain rfl := Except.ok.inj h
        cases hrole
    | some pages =>
        obtain ⟨bytes, -, h⟩ := bind_eq_ok.mp h
        obtain rfl := Except.ok.inj h
        exact List.mem_singleton.mp hrole ▸ ⟨nofun, nofun⟩

/-- What is written of a column: its encoding, and beside it what describes it. -/
theorem writeColumn_ok (h : writeColumn K array field options bytes = .ok (bytes', chunk)) :
    ∃ encoded side, columnEncoding K array (options.compression.codecFor field.dataType) options = .ok encoded ∧
      Beside (side.map Prod.fst) ∧
      writeBlockedChunk K array encoded (options.compression.codecFor field.dataType) options side bytes = .ok (bytes', chunk) := by
  unfold writeColumn at h
  obtain ⟨encoded, hencoded, h⟩ := bind_eq_ok.mp h
  obtain ⟨bloom, -, h⟩ := bind_eq_ok.mp h
  obtain ⟨zones, hzones, h⟩ := bind_eq_ok.mp h
  exact ⟨encoded, _, hencoded, beside_sideBuffers hzones, h⟩

theorem writeColumn_serves (L : K.Lawful M) (hwhole : whole.length < usizeLimit) (hvalid : M.Valid array)
    (h : writeColumn K array field options bytes = .ok (bytes', chunk)) (hstarts : bytes' <+: whole)
    (hroom : chunk.blocks.length * 16 < 2 ^ 63) : Serves K M whole array chunk := by
  obtain ⟨encoded, side, hencoded, hside, hwritten⟩ := writeColumn_ok h
  unfold columnEncoding at hencoded
  refine serves_written L hwhole hvalid hside (fun hwanted => ?_) (fun hwanted => ?_) hwritten hstarts hroom
  · rw [hwanted] at hencoded
    exact encodeColumn_encodes hencoded
  · rw [if_pos hwanted] at hencoded
    obtain rfl := Except.ok.inj hencoded
    rfl

/-- Where the buffers of a column lie: those of its blocks before those of the column itself. -/
def LiesIn (start stop : Nat) (chunk : ColumnChunk) : Prop :=
  ∃ middle, start ≤ middle ∧ middle ≤ stop ∧ Between start middle (chunk.blocks.flatMap ColumnChunk.extents) ∧
    Between middle stop chunk.extents

theorem LiesIn.mono {start start' stop stop' : Nat} (h : LiesIn start stop chunk) (hstart : start' ≤ start) (hstop : stop ≤ stop') :
    LiesIn start' stop' chunk := by
  obtain ⟨middle, hlow, hhigh, hblocks, hown⟩ := h
  exact ⟨middle, hstart.trans hlow, hhigh.trans hstop, hblocks.mono hstart le_rfl, hown.mono le_rfl hstop⟩

theorem writeBlockedChunk_between {encoded : EncodedColumn} {codec : Codec} {side : List (BufferRole × StoredBuffer)}
    (h : writeBlockedChunk K array encoded codec options side bytes = .ok (bytes', chunk)) :
    bytes <+: bytes' ∧ LiesIn bytes.length bytes'.length chunk := by
  by_cases hwanted : blocksWanted array codec options = true
  · obtain ⟨middle, blocks, outer, hblocks, houter, rfl⟩ := writeBlockedChunk_ok hwanted h
    obtain ⟨new, rfl, hstarts, -, hbetween⟩ := foldlM_writeBlock hblocks
    obtain ⟨hgrows, hextents⟩ := writeChunk_between houter
    refine ⟨hstarts.trans hgrows, middle.length, hstarts.length_le, hgrows.length_le, hbetween, ?_⟩
    cases outer
    exact hextents
  · unfold writeBlockedChunk at h
    rw [if_pos hwanted] at h
    obtain ⟨hgrows, hextents⟩ := writeChunk_between h
    refine ⟨hgrows, bytes.length, le_rfl, hgrows.length_le, ?_, hextents⟩
    obtain ⟨_, _, _, _, -, -, -, rfl⟩ := writeChunk_ok h
    exact fun _ h => nomatch h

theorem writeColumn_between (h : writeColumn K array field options bytes = .ok (bytes', chunk)) :
    bytes <+: bytes' ∧ LiesIn bytes.length bytes'.length chunk := by
  obtain ⟨_, _, -, -, hwritten⟩ := writeColumn_ok h
  exact writeBlockedChunk_between hwritten

/-- How a column came into a segment. -/
def ColumnWritten (K : Kit) (options : Options) (final : Bytes) (column : ArrayData × Field DataType) (chunk : ColumnChunk) :
    Prop :=
  ∃ before after, writeColumn K column.1 column.2 options before = .ok (after, chunk) ∧ after <+: final

/-- The columns are written one after the other. -/
theorem writeColumns_ok : ∀ {columns : List (ArrayData × Field DataType)} {bytes bytes' : Bytes} {chunks : List ColumnChunk},
    writeColumns K options columns bytes = .ok (bytes', chunks) →
    bytes <+: bytes' ∧ List.Forall₂ (ColumnWritten K options bytes') columns chunks ∧
      (∀ chunk ∈ chunks, LiesIn bytes.length bytes'.length chunk) ∧
      chunks.Pairwise fun first second => ∃ mark, LiesIn bytes.length mark first ∧ LiesIn mark bytes'.length second
  | [], bytes, bytes', chunks, h => by
      rw [writeColumns] at h
      obtain ⟨rfl, rfl⟩ := Prod.mk.inj (Except.ok.inj h)
      exact ⟨List.prefix_refl _, .nil, fun _ h => absurd h List.not_mem_nil, List.Pairwise.nil⟩
  | column :: columns, bytes, bytes', chunks, h => by
      rw [writeColumns] at h
      obtain ⟨⟨middle, chunk⟩, hchunk, h⟩ := bind_eq_ok.mp h
      obtain ⟨⟨final, rest⟩, hrest, h⟩ := bind_eq_ok.mp h
      obtain ⟨rfl, rfl⟩ := Prod.mk.inj (Except.ok.inj h)
      obtain ⟨hgrows, hlies⟩ := writeColumn_between hchunk
      obtain ⟨hstarts, hall, hin, hapart⟩ := writeColumns_ok hrest
      refine ⟨hgrows.trans hstarts, .cons ⟨bytes, middle, hchunk, hstarts⟩ hall, ?_, ?_⟩
      · intro other hother
        rcases List.mem_cons.mp hother with rfl | hother
        · exact hlies.mono le_rfl hstarts.length_le
        · exact (hin other hother).mono hgrows.length_le le_rfl
      · refine .cons (fun other hother => ⟨middle.length, hlies, hin other hother⟩) (hapart.imp fun h => ?_)
        obtain ⟨mark, hfirst, hsecond⟩ := h
        exact ⟨mark, hfirst.mono hgrows.length_le le_rfl, hsecond⟩

end Columns

section Batches

/-- What Arrow guarantees of a column of a batch. -/
structure IsColumn (M : Meaning ν) (rows : Nat) (array : ArrayData) (field : Field DataType) : Prop where
  valid : M.Valid array
  dataType : array.dataType = field.dataType
  len : array.len = rows
  nullCount : field.nullable = false → array.nullCount = 0

/-- What Arrow guarantees of a batch: it has the columns its schema names. -/
def RecordBatch.Sound (M : Meaning ν) (schema : Schema DataType) (batch : RecordBatch) : Prop :=
  List.Forall₂ (IsColumn M batch.numRows) batch.columns schema.fields

/-- The values a batch holds in one column. -/
def RecordBatch.valuesAt (M : Meaning ν) (batch : RecordBatch) (index : Nat) : List ν :=
  (batch.columns[index]?.map M.values).getD []

/-- The values some batches hold in one column, one after the other. -/
def valuesAt (M : Meaning ν) (batches : List RecordBatch) (index : Nat) : List ν :=
  batches.flatMap fun batch => batch.valuesAt M index

def rowsOf (batches : List RecordBatch) : Nat := (batches.map RecordBatch.numRows).sum

variable {schema : Schema DataType} {batches : List RecordBatch} {index : Nat} {field : Field DataType}

theorem column_sound {batch : RecordBatch} (h : batch.Sound M schema) (hfield : schema.fields[index]? = some field) :
    ∃ array, batch.column index = .ok array ∧ IsColumn M batch.numRows array field ∧ batch.valuesAt M index = M.values array := by
  obtain ⟨array, harray, hcolumn⟩ := forall₂_getElem? h hfield
  refine ⟨array, ?_, hcolumn, ?_⟩
  · rw [RecordBatch.column, harray]
  · rw [RecordBatch.valuesAt, harray]
    rfl

theorem length_valuesAt (L : K.Lawful M) (h : ∀ batch ∈ batches, batch.Sound M schema)
    (hfield : schema.fields[index]? = some field) : (valuesAt M batches index).length = rowsOf batches := by
  induction batches with
  | nil => rfl
  | cons batch batches ih =>
      obtain ⟨array, -, hcolumn, hvalues⟩ := column_sound (h batch List.mem_cons_self) hfield
      have hrest := ih fun other hother => h other (List.mem_cons_of_mem _ hother)
      rw [valuesAt] at hrest ⊢
      rw [List.flatMap_cons, List.length_append, hrest, hvalues, L.length_values hcolumn.valid, hcolumn.len, rowsOf, rowsOf,
        List.map_cons, List.sum_cons]

/-- The parts of a column that several batches hold. -/
theorem columns_sound (h : ∀ batch ∈ batches, batch.Sound M schema) (hfield : schema.fields[index]? = some field)
    {parts : List ArrayData} (hparts : (batches.mapM fun batch => batch.column index) = .ok parts) :
    (∀ part ∈ parts, M.Valid part ∧ part.dataType = field.dataType ∧ (field.nullable = false → part.nullCount = 0)) ∧
      parts.flatMap M.values = valuesAt M batches index := by
  have hforall := mapM_ok hparts
  clear hparts
  induction hforall with
  | nil => exact ⟨fun _ h => (nomatch h), rfl⟩
  | cons hone _ ih =>
      obtain ⟨array, harray, hcolumn, hvalues⟩ := column_sound (h _ List.mem_cons_self) hfield
      obtain rfl := Except.ok.inj (hone.symm.trans harray)
      obtain ⟨hrest, hflat⟩ := ih fun other hother => h other (List.mem_cons_of_mem _ hother)
      refine ⟨fun part hpart => ?_, ?_⟩
      · rcases List.mem_cons.mp hpart with rfl | hpart
        · exact ⟨hcolumn.valid, hcolumn.dataType, hcolumn.nullCount⟩
        · exact hrest part hpart
      · rw [valuesAt, List.flatMap_cons, List.flatMap_cons, hvalues, hflat]
        rfl

theorem concatColumn_sound (L : K.Lawful M) (h : ∀ batch ∈ batches, batch.Sound M schema)
    (hfield : schema.fields[index]? = some field) (hknown : M.Known field.dataType) {array : ArrayData}
    (hconcat : concatColumn K batches index field.dataType = .ok array) :
    IsColumn M (rowsOf batches) array field ∧ M.values array = valuesAt M batches index := by
  unfold concatColumn at hconcat
  split at hconcat
  · obtain rfl := Except.ok.inj hconcat
    obtain ⟨hvalid, htype, hvalues, hnulls⟩ := L.newEmptyArray hknown
    refine ⟨⟨hvalid, htype, ?_, fun _ => hnulls⟩, hvalues⟩
    rw [← L.length_values hvalid, hvalues]
    rfl
  · next batch =>
      obtain ⟨other, hother, hcolumn, hvalues⟩ := column_sound (h batch (List.mem_singleton_self batch)) hfield
      obtain rfl := Except.ok.inj (hother.symm.trans hconcat)
      refine ⟨⟨hcolumn.valid, hcolumn.dataType, ?_, hcolumn.nullCount⟩, ?_⟩
      · rw [hcolumn.len, rowsOf, List.map_singleton, List.sum_singleton]
      · rw [valuesAt, List.flatMap_singleton, hvalues]
  · next hnone hone =>
      obtain ⟨parts, hparts, hconcat⟩ := bind_eq_ok.mp hconcat
      obtain ⟨hsound, hflat⟩ := columns_sound h hfield hparts
      split at hconcat
      · next joined hjoined =>
          obtain rfl := Except.ok.inj hconcat
          have hnonempty : parts ≠ [] := by
            rintro rfl
            have := (mapM_ok hparts).length_eq
            exact hnone (List.length_eq_zero_iff.mp this)
          obtain ⟨hvalid, htype, hvalues, hcount⟩ := L.concat hnonempty (fun part hpart =>
            ⟨(hsound part hpart).1, (hsound part hpart).2.1⟩) hjoined
          refine ⟨⟨hvalid, htype, ?_, fun hnull => ?_⟩, hvalues.trans hflat⟩
          · rw [← L.length_values hvalid, hvalues, hflat, length_valuesAt L h hfield]
          · rw [hcount]
            refine List.sum_eq_zero fun count hcounted => ?_
            obtain ⟨part, hmem, rfl⟩ := List.mem_map.mp hcounted
            exact (hsound part hmem).2.2 hnull
      · cases hconcat

end Batches

section Built

variable {schema : Schema DataType} {batches : List RecordBatch} {options : Options} {segmentId fingerprint : Nat}
  {built : BuiltSegment}

theorem buildSegment_ok (h : buildSegment K segmentId schema fingerprint batches options = .ok built) :
    ∃ columns bytes payload, concatColumns K schema batches = .ok columns ∧
      writeColumns K options columns [] = .ok (bytes, built.segmentMeta.columns) ∧
      K.archive built.segmentMeta = .ok payload ∧
      built.segmentMeta.rowCount = rowsOf batches ∧ built.segmentMeta.schemaFingerprint = fingerprint ∧
      built.rowCount = rowsOf batches ∧
      built.bytes = padToAlignment bytes ++ Frame.encode K.checksum segmentTag payload ∧
      built.metaExtent = ⟨(padToAlignment bytes).length, (Frame.encode K.checksum segmentTag payload).length⟩ := by
  unfold buildSegment at h
  split at h
  · cases h
  · obtain ⟨columns, hcolumns, h⟩ := bind_eq_ok.mp h
    obtain ⟨⟨bytes, chunks⟩, hwritten, h⟩ := bind_eq_ok.mp h
    obtain ⟨payload, hpayload, h⟩ := bind_eq_ok.mp h
    obtain rfl := Except.ok.inj h
    exact ⟨columns, bytes, payload, hcolumns, hwritten, hpayload, rfl, rfl, rfl, rfl, rfl⟩

theorem concatColumns_getElem? {columns : List (ArrayData × Field DataType)} (h : concatColumns K schema batches = .ok columns)
    {index : Nat} {column : ArrayData × Field DataType} (hcolumn : columns[index]? = some column) :
    schema.fields[index]? = some column.2 ∧ concatColumn K batches index column.2.dataType = .ok column.1 := by
  obtain ⟨entry, hentry, hone⟩ := (mapM_getElem? h).mp hcolumn
  obtain ⟨array, harray, hone⟩ := bind_eq_ok.mp hone
  obtain rfl := Except.ok.inj hone
  rw [List.getElem?_zipIdx] at hentry
  obtain ⟨field, hfield, rfl⟩ := Option.map_eq_some_iff.mp hentry
  rw [Nat.zero_add] at harray
  exact ⟨hfield, harray⟩

theorem length_columns (h : buildSegment K segmentId schema fingerprint batches options = .ok built) :
    built.segmentMeta.columns.length = schema.fields.length := by
  obtain ⟨columns, bytes, payload, hcolumns, hwritten, -⟩ := buildSegment_ok h
  rw [← (writeColumns_ok hwritten).2.1.length_eq, ← (mapM_ok hcolumns).length_eq, List.length_zipIdx]

/-- Every column of a segment is served, with the values of the batches. -/
theorem built_serves (L : K.Lawful M) (hbatches : ∀ batch ∈ batches, batch.Sound M schema)
    (hknown : ∀ field ∈ schema.fields, M.Known field.dataType)
    (h : buildSegment K segmentId schema fingerprint batches options = .ok built) (hbytes : built.bytes.length < 2 ^ 63)
    {index : Nat} {chunk : ColumnChunk} (hchunk : built.segmentMeta.columns[index]? = some chunk) :
    ∃ array field, schema.fields[index]? = some field ∧ IsColumn M (rowsOf batches) array field ∧
      M.values array = valuesAt M batches index ∧ Serves K M built.bytes array chunk := by
  obtain ⟨columns, bytes, payload, hcolumns, hwritten, hpayload, -, -, -, hall, -⟩ := buildSegment_ok h
  obtain ⟨column, hcolumn, before, after, hone, hafter⟩ := forall₂_getElem? (writeColumns_ok hwritten).2.1 hchunk
  obtain ⟨hfield, hconcat⟩ := concatColumns_getElem? hcolumns hcolumn
  obtain ⟨hsound, hvalues⟩ := concatColumn_sound L hbatches hfield (hknown _ (List.mem_of_getElem? hfield)) hconcat
  have hstarts : bytes <+: built.bytes := by
    rw [hall]
    exact (padToAlignment_starts bytes).trans (List.prefix_append _ _)
  have hroom : chunk.blocks.length * 16 < 2 ^ 63 := by
    have hframe := L.archive_length hpayload chunk (List.mem_of_getElem? hchunk)
    rw [hall, List.length_append, Frame.length_encode] at hbytes
    omega
  have hwhole : built.bytes.length < usizeLimit := hbytes.trans (by decide)
  exact ⟨column.1, column.2, hfield, hsound, hvalues,
    writeColumn_serves L hwhole hsound.valid hone (hafter.trans hstarts) hroom⟩

/-- The reader of a segment that is held in memory. -/
def BuiltSegment.reader (built : BuiltSegment) (schema : Schema DataType) : SegmentReader :=
  ⟨built.bytes, built.metaExtent.offset, built.metaExtent.len, schema⟩

theorem segmentMeta_built (L : K.Lawful M) (h : buildSegment K segmentId schema fingerprint batches options = .ok built)
    (hbytes : built.bytes.length < usizeLimit) (readSchema : Schema DataType) :
    (built.reader readSchema).segmentMeta K = .ok built.segmentMeta := by
  obtain ⟨columns, bytes, payload, -, -, hpayload, -, -, -, hall, hmeta⟩ := buildSegment_ok h
  have hlen : built.bytes.length = (padToAlignment bytes).length + (Frame.encode K.checksum segmentTag payload).length := by
    rw [hall, List.length_append]
  have hdecode := Frame.decode_encode K.checksum payload [] "segment metadata" (show segmentTag < 2 ^ 64 by decide) (by
    rw [Frame.length_encode] at hlen
    unfold usizeLimit at hbytes
    omega)
  rw [List.append_nil] at hdecode
  unfold SegmentReader.segmentMeta BuiltSegment.reader
  rw [hmeta]
  dsimp only
  rw [add_eq (by omega)]
  have hslice : (slice built.bytes (padToAlignment bytes).length
      ((padToAlignment bytes).length + (Frame.encode K.checksum segmentTag payload).length) : Outcome Error Bytes) =
        .ok (Frame.encode K.checksum segmentTag payload) := by
    rw [slice_eq (Nat.le_add_right _ _) hlen.ge, Nat.add_sub_cancel_left, hall, List.drop_left, List.take_length]
  simp only [bind, Except.bind, hslice, hdecode, ofExcept_ok, L.access hpayload]

/-- A segment opens under a layout that accepts it. -/
theorem new_built (L : K.Lawful M) (h : buildSegment K segmentId schema fingerprint batches options = .ok built)
    (hbytes : built.bytes.length < usizeLimit) (readSchema : Schema DataType) {layout : List Nat}
    (haccepts : layoutAccepts layout schema.fields.length fingerprint = true) (offset : Nat) :
    SegmentReader.new K built.bytes offset (built.placed offset).2 readSchema layout = .ok (built.reader readSchema) := by
  have hmeta := segmentMeta_built L h hbytes readSchema
  have hcolumns := length_columns h
  obtain ⟨columns, bytes, payload, -, -, -, -, hfingerprint, -, hall, hextent⟩ := buildSegment_ok h
  have hlen : built.metaExtent.offset + built.metaExtent.len = built.bytes.length := by
    rw [hall, hextent, List.length_append]
  unfold SegmentReader.new BuiltSegment.placed
  rw [if_neg (by dsimp only; omega)]
  dsimp only
  rw [Nat.add_sub_cancel_left, add_eq (by omega)]
  simp only [bind, Except.bind, hlen, gt_iff_lt, Nat.lt_irrefl, if_false]
  rw [BuiltSegment.reader] at hmeta
  rw [hmeta]
  dsimp only
  rw [hcolumns, hfingerprint, if_pos haccepts]
  rfl

end Built

section Read

/-- An array that holds some values of a field. -/
structure HoldsValues (M : Meaning ν) (field : Field DataType) (values : List ν) (part : ArrayData) : Prop where
  valid : M.Valid part
  dataType : part.dataType = field.dataType
  values : M.values part = values
  nullCount : field.nullable = false → part.nullCount = 0

/-- Arrow makes a batch of columns that fit the schema. -/
theorem tryNew_ok (L : K.Lawful M) {fields : List (Field DataType)} {columns : List ArrayData} {rows : Nat}
    (h : List.Forall₂ (fun field column => ∃ values, HoldsValues M field values column ∧ values.length = rows) fields columns) :
    RecordBatch.tryNew ⟨fields, []⟩ columns (if columns.isEmpty then some rows else none) = .ok ⟨⟨fields, []⟩, columns, rows⟩ := by
  have hlens : ∀ column ∈ columns, column.len = rows := by
    intro column hcolumn
    obtain ⟨index, hindex⟩ := List.getElem?_of_mem hcolumn
    obtain ⟨field, -, values, hholds, hlen⟩ := forall₂_getElem? h hindex
    rw [← L.length_values hholds.valid, hholds.values, hlen]
  have htypes : columns.map ArrayData.dataType = fields.map Field.dataType := by
    clear hlens
    induction h with
    | nil => rfl
    | cons hone _ ih =>
        obtain ⟨values, hholds, -⟩ := hone
        rw [List.map_cons, List.map_cons, hholds.dataType, ih]
  have hnulls : ((columns.zip fields).any fun entry => decide (¬entry.2.nullable ∧ entry.1.nullCount > 0)) = false := by
    rw [List.any_eq_false]
    intro entry hentry
    obtain ⟨index, hindex⟩ := List.getElem?_of_mem hentry
    obtain ⟨hcolumn, hfield⟩ := List.getElem?_zip_eq_some.mp hindex
    obtain ⟨field, hat, values, hholds, -⟩ := forall₂_getElem? h hcolumn
    obtain rfl := Option.some.inj (hfield.symm.trans hat)
    rw [decide_eq_true_eq]
    rintro ⟨hnullable, hcount⟩
    have := hholds.nullCount (by simpa using hnullable)
    omega
  have hrows : (if columns.isEmpty then some rows else none).or (columns.head?.map ArrayData.len) = some rows := by
    cases columns with
    | nil => rfl
    | cons column columns =>
        rw [if_neg (by simp), List.head?_cons, Option.map_some, hlens column List.mem_cons_self]
        rfl
  have hsame : (columns.any fun column => column.len ≠ rows) = false := by
    rw [List.any_eq_false]
    intro column hcolumn
    simpa using hlens column hcolumn
  unfold RecordBatch.tryNew
  rw [if_neg (not_not.mpr h.length_eq), hrows]
  dsimp only
  rw [hnulls, hsame, if_neg Bool.false_ne_true, if_neg Bool.false_ne_true, if_neg (not_not.mpr htypes)]

variable {schema readSchema : Schema DataType} {batches : List RecordBatch} {options : Options} {segmentId fingerprint : Nat}
  {built : BuiltSegment}

/-- A schema that has the columns of another, and then columns that may be null and have room for so many nulls. -/
structure Extends (M : Meaning ν) (rows : Nat) (schema readSchema : Schema DataType) : Prop where
  fields : readSchema.fields.take schema.fields.length = schema.fields
  nullable : ∀ field ∈ readSchema.fields.drop schema.fields.length, field.nullable = true
  nulls : ∀ field ∈ readSchema.fields.drop schema.fields.length, M.Fits field.dataType (List.replicate rows M.null)

/-- The values of one column of a segment, nulls where it predates the column. -/
def columnValues (M : Meaning ν) (schema : Schema DataType) (batches : List RecordBatch) (index : Nat) : List ν :=
  if index < schema.fields.length then valuesAt M batches index else List.replicate (rowsOf batches) M.null

theorem length_columnValues (L : K.Lawful M) (h : ∀ batch ∈ batches, batch.Sound M schema) (index : Nat) :
    (columnValues M schema batches index).length = rowsOf batches := by
  unfold columnValues
  split
  · next hindex => exact length_valuesAt L h (List.getElem?_eq_getElem hindex)
  · exact List.length_replicate

/-- The rows of one column, read from a segment. -/
theorem columnFrom_built (L : K.Lawful M) (hbatches : ∀ batch ∈ batches, batch.Sound M schema)
    (hknown : ∀ field ∈ schema.fields, M.Known field.dataType) (hextends : Extends M (rowsOf batches) schema readSchema)
    (h : buildSegment K segmentId schema fingerprint batches options = .ok built) (hbytes : built.bytes.length < 2 ^ 63)
    {index : Nat} {field : Field DataType} (hfield : readSchema.fields[index]? = some field)
    {start len : Nat} (hinside : start + len ≤ rowsOf batches) :
    ∃ part, SegmentReader.columnFrom K (segmentBytes built.bytes) built.segmentMeta field index start len = .ok part ∧
      HoldsValues M field (((columnValues M schema batches index).drop start).take len) part := by
  have hcolumns := length_columns h
  unfold SegmentReader.columnFrom columnValues
  cases hchunk : built.segmentMeta.columns[index]? with
  | none =>
      have hindex : schema.fields.length ≤ index := by
        rw [List.getElem?_eq_none_iff] at hchunk
        omega
      have hadded : field ∈ readSchema.fields.drop schema.fields.length := by
        refine List.mem_of_getElem? (i := index - schema.fields.length) ?_
        rw [List.getElem?_drop, Nat.add_sub_cancel' hindex, hfield]
      have hroom : M.Fits field.dataType (List.replicate len M.null) := by
        have hpart : M.Fits field.dataType (((List.replicate (rowsOf batches) M.null).drop start).take len) :=
          L.fits_part (hextends.nulls field hadded)
        rwa [List.drop_replicate, List.take_replicate, min_eq_left (by omega)] at hpart
      obtain ⟨hvalid, htype, hvalues⟩ := L.newNullArray hroom
      refine ⟨_, rfl, hvalid, htype, ?_, fun hnull => ?_⟩
      · rw [if_neg (Nat.not_lt.mpr hindex), hvalues, List.drop_replicate, List.take_replicate, min_eq_left (by omega)]
      · rw [hextends.nullable field hadded] at hnull
        cases hnull
  | some chunk =>
      have hindex : index < schema.fields.length := hcolumns ▸ (List.getElem?_eq_some_iff.mp hchunk).1
      have hsame : schema.fields[index]? = some field := by
        rw [← hextends.fields, List.getElem?_take_of_lt hindex, hfield]
      obtain ⟨array, stored, hstored, hsound, hvalues, hserves⟩ := built_serves L hbatches hknown h hbytes hchunk
      obtain rfl := Option.some.inj (hsame.symm.trans hstored)
      obtain ⟨part, hpart, hpartRows⟩ := hserves.rows start len (hsound.len ▸ hinside)
      refine ⟨part, hsound.dataType ▸ hpart, hpartRows.valid, hpartRows.dataType.trans hsound.dataType, ?_, fun hnull =>
        hpartRows.nullCount (hsound.nullCount hnull)⟩
      rw [if_pos hindex, hpartRows.values, hvalues]

/-- The fields of a projection whose columns are all in the schema. -/
theorem projectedFields_ok {reader : SegmentReader} {indices : List Nat}
    (h : ∀ index ∈ indices, index < reader.schema.fields.length) :
    ∃ fields, indices.mapM reader.projectedField = .ok fields ∧
      List.Forall₂ (fun index field => reader.schema.fields[index]? = some field) indices fields := by
  refine mapM_forall₂ fun index hindex => ?_
  obtain ⟨field, hfield⟩ : ∃ field, reader.schema.fields[index]? = some field :=
    ⟨_, List.getElem?_eq_getElem (h index hindex)⟩
  refine ⟨field, ?_, hfield⟩
  rw [SegmentReader.projectedField, hfield]

/-- Some rows of the projected columns, read from a segment. -/
theorem readRows_built (L : K.Lawful M) (hbatches : ∀ batch ∈ batches, batch.Sound M schema)
    (hknown : ∀ field ∈ schema.fields, M.Known field.dataType) (hextends : Extends M (rowsOf batches) schema readSchema)
    (h : buildSegment K segmentId schema fingerprint batches options = .ok built) (hbytes : built.bytes.length < 2 ^ 63)
    {projection : Option (List Nat)} {fields : List (Field DataType)}
    (hfields : ((built.reader readSchema).indices projection).mapM (built.reader readSchema).projectedField = .ok fields)
    {start len : Nat} (hinside : start + len ≤ rowsOf batches) :
    ∃ columns, (built.reader readSchema).readRows K projection start len = .ok ⟨⟨fields, []⟩, columns, len⟩ ∧
      List.Forall₂ (fun entry part => HoldsValues M entry.2 (((columnValues M schema batches entry.1).drop start).take len) part)
        (((built.reader readSchema).indices projection).zip fields) columns := by
  have hlength := (mapM_ok hfields).length_eq
  have hplaces := projectedFields hfields
  obtain ⟨columns, hcolumns, hall⟩ := mapM_forall₂
    (f := fun entry : Nat × Field DataType =>
      SegmentReader.columnFrom K (segmentBytes built.bytes) built.segmentMeta entry.2 entry.1 start len)
    (P := fun entry part => HoldsValues M entry.2 (((columnValues M schema batches entry.1).drop start).take len) part)
    fun entry hentry => columnFrom_built L hbatches hknown hextends h hbytes (hplaces entry hentry) hinside
  refine ⟨columns, ?_, hall⟩
  have hfit : List.Forall₂ (fun field column => ∃ values, HoldsValues M field values column ∧ values.length = len)
      fields columns := by
    have hzip : (((built.reader readSchema).indices projection).zip fields).map Prod.snd = fields :=
      List.map_snd_zip hlength.ge
    rw [← hzip, List.forall₂_map_left_iff]
    refine hall.imp fun entry part hholds => ⟨_, hholds, ?_⟩
    rw [List.length_take, List.length_drop, length_columnValues L hbatches]
    omega
  unfold SegmentReader.readRows SegmentReader.readRowsFrom
  dsimp only
  rw [hfields, segmentMeta_built L h (hbytes.trans (by decide))]
  simp only [bind, Except.bind, ofExcept_ok]
  change (do
    let columns ← (((built.reader readSchema).indices projection).zip fields).mapM fun entry : Nat × Field DataType =>
      SegmentReader.columnFrom K (segmentBytes built.bytes) built.segmentMeta entry.2 entry.1 start len
    ofExcept (RecordBatch.tryNew ⟨fields, []⟩ columns (if columns.isEmpty then some len else none))) = _
  rw [hcolumns]
  simp only [bind, Except.bind, tryNew_ok L hfit, ofExcept_ok]

theorem read_built (L : K.Lawful M) (h : buildSegment K segmentId schema fingerprint batches options = .ok built)
    (hbytes : built.bytes.length < usizeLimit) (projection : Option (List Nat)) :
    (built.reader readSchema).read K projection = (built.reader readSchema).readRows K projection 0 (rowsOf batches) := by
  obtain ⟨_, _, _, -, -, -, hrows, -⟩ := buildSegment_ok h
  unfold SegmentReader.read SegmentReader.rowCount
  rw [segmentMeta_built L h hbytes]
  simp only [bind, Except.bind, pure, Except.pure, hrows]

end Read

end Segment

end LocalTables
