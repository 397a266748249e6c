import LocalTables.Columnar.Across
import LocalTables.Columnar.Types
import LocalTables.Io.ByteMedia
import LocalTables.Table.Evolution

/-! A table down to the bytes of its file. A segment is built of the arrays its rows come in. A scan that takes the bytes of each
listed extent, and decodes what it is asked for, sees the rows the table holds. -/

namespace LocalTables

variable {ν : Type} {env : Env DataType ν} {M : Segment.Meaning ν} {data other : SegmentData ν} {schema S : Schema DataType}
  {batches held : List Segment.RecordBatch}

/-- Some batches, of some schema, are what a segment is written from. -/
structure SegmentData.Written (env : Env DataType ν) (M : Segment.Meaning ν) (data : SegmentData ν) (schema : Schema DataType)
    (batches : List Segment.RecordBatch) : Prop where
  columns : schema.fields.length = data.columns
  stamp : env.schemaHash (anonymous schema.fields) = data.schemaFingerprint
  blockRows : data.blockRows = if env.options.compressionBlockRows > 0 ∧ data.rows.length > env.options.compressionBlockRows ∧
      schema.fields.any fun field => env.worthBlocking field.dataType
    then env.options.compressionBlockRows else 0
  sound : ∀ batch ∈ batches, batch.Sound M schema
  known : ∀ field ∈ schema.fields, M.Known field.dataType
  rows : batches.flatMap (Segment.RecordBatch.across M) = data.rows
  few : data.rows.length < 2 ^ 63

/-- The arrays the rows of a table come in, and what is called to write and to read them. -/
structure Arrays (env : Env DataType ν) where
  kit : Segment.Kit
  meaning : Segment.Meaning ν
  options : Segment.Options
  lawful : kit.Lawful meaning
  masks : kit.Masks meaning
  null : meaning.null = env.null
  blockRows : options.compressionBlockRows = env.options.compressionBlockRows
  worthBlocking : ∀ type, env.worthBlocking type = Segment.worthBlocking (options.compression.codecFor type) type
  tellsApart : TellsApart env
  /-- The schema and the batches a segment is written from. -/
  batches : SegmentData ν → Except Error (Schema DataType × List Segment.RecordBatch)
  written : ∀ {data schema held}, batches data = .ok (schema, held) → data.Written env meaning schema held

namespace SegmentData.Written

theorem rowsOf (h : data.Written env M schema batches) : Segment.rowsOf batches = data.rows.length := by
  rw [← h.rows, Segment.length_flatMap_across]

/-- A schema a segment suits widens the one it was written under. -/
theorem widens (h : data.Written env M schema batches) (htells : TellsApart env) (hsuits : Table.Suits env S data)
    (hnulls : ∀ field ∈ S.fields.drop data.columns, M.Fits field.dataType (List.replicate data.rows.length M.null)) :
    Segment.Widens M (Segment.rowsOf batches) schema S := by
  obtain ⟨haccepts, hnullable⟩ := hsuits
  rw [← h.columns] at hnullable hnulls
  rw [← h.rowsOf] at hnulls
  refine ⟨?_, hnullable, hnulls⟩
  apply (layoutAccepts_stamped htells S schema).mp
  have hstamp : layoutCurrent (schemaLayout env schema) = data.schemaFingerprint := by
    rw [← (layoutAccepts_iff.mp layoutAccepts_current).2, prefixHash, List.take_length, ← h.stamp]
    rfl
  rw [hstamp, h.columns]
  exact haccepts

end SegmentData.Written

namespace Arrays

variable (A : Arrays env)

/-- The bytes of a segment, and where the frame of its metadata lies in them. No buffer is longer than half of memory. -/
def build (data : SegmentData ν) : Except Error (Bytes × Extent) := do
  let (schema, held) ← A.batches data
  let built ← Segment.buildSegment A.kit data.segmentId schema data.schemaFingerprint held A.options
  if built.bytes.length < 2 ^ 63 then return (built.bytes, built.metaExtent)
  else throw (.unsupported "capacity overflow")

/-- Rows to a page, where there is more than one. -/
def pageRows (data : SegmentData ν) : Nat := storedPageRows data.rows.length A.options.pageRows

section Built

variable {A} {bytes : Bytes} {metaFrame : Extent}

theorem build_ok (h : A.build data = .ok (bytes, metaFrame)) : ∃ schema held built, data.Written env A.meaning schema held ∧
    Segment.buildSegment A.kit data.segmentId schema data.schemaFingerprint held A.options = .ok built ∧
    built.bytes.length < 2 ^ 63 ∧ built.bytes = bytes ∧ built.metaExtent = metaFrame := by
  obtain ⟨⟨schema, held⟩, hheld, h⟩ := bind_eq_ok.mp h
  obtain ⟨built, hbuilt, h⟩ := bind_eq_ok.mp h
  by_cases hshort : built.bytes.length < 2 ^ 63
  · rw [if_pos hshort] at h
    obtain ⟨rfl, rfl⟩ := Prod.mk.inj (Except.ok.inj h)
    exact ⟨schema, held, built, A.written hheld, hbuilt, hshort, rfl, rfl⟩
  · rw [if_neg hshort] at h
    cases h

/-- The metadata of a segment says what it is. -/
theorem segmentMeta_eq (hwritten : data.Written env A.meaning schema held) {built : Segment.BuiltSegment}
    (h : Segment.buildSegment A.kit data.segmentId schema data.schemaFingerprint held A.options = .ok built) :
    built.segmentMeta.segmentId = data.segmentId ∧ built.segmentMeta.rowCount = data.rows.length ∧
      built.segmentMeta.schemaFingerprint = data.schemaFingerprint ∧ built.segmentMeta.pageRows = A.pageRows data ∧
      built.segmentMeta.columns.length = data.columns ∧ built.segmentMeta.blockRows = data.blockRows := by
  have hblocks := Segment.blockRows_built A.lawful hwritten.sound hwritten.known h
  rw [hwritten.rowsOf, A.blockRows] at hblocks
  simp only [← A.worthBlocking] at hblocks
  obtain ⟨hid, hpages, -⟩ := Segment.segmentMeta_numbers h
  obtain ⟨_, _, _, -, -, -, hrows, hfingerprint, -⟩ := Segment.buildSegment_ok h
  refine ⟨hid, hrows.trans hwritten.rowsOf, hfingerprint, ?_, (Segment.length_columns h).trans hwritten.columns,
    hblocks.trans hwritten.blockRows.symm⟩
  rw [hpages, hwritten.rowsOf, pageRows]

/-- The rows of a segment, read back whole under the schema it was written under, or one of the same columns. -/
theorem rows_read (hwritten : data.Written env A.meaning schema held) {built : Segment.BuiltSegment}
    (h : Segment.buildSegment A.kit data.segmentId schema data.schemaFingerprint held A.options = .ok built)
    (hshort : built.bytes.length < 2 ^ 63) (hshapes : shapes schema.fields = shapes S.fields) :
    ∃ page, (built.reader S).readRows A.kit none 0 data.rows.length = .ok page ∧ page.across A.meaning = data.rows := by
  have hrows := hwritten.rowsOf
  obtain ⟨page, hpage, -, -, hacross⟩ := Segment.readRows_across A.lawful hwritten.sound hwritten.known
    (Segment.Widens.of_shapes hshapes) h hshort (fun indices (hindices : indices ∈ (none : Option (List Nat))) => nomatch hindices)
    ((Nat.zero_add _).trans hrows.symm).le
  have hwidth : S.fields.length = schema.fields.length := by
    simpa [shapes] using (congrArg List.length hshapes).symm
  refine ⟨page, hpage, ?_⟩
  rw [hacross, Segment.seen, hwritten.rows, hwidth, Nat.sub_self, List.drop_zero, List.take_of_length_le (by simp)]
  simp [projectRow]

/-- What is in the bytes of a segment is told by the bytes. -/
theorem build_injective {placed : Bytes × Extent} (h : A.build data = .ok placed) (h' : A.build other = .ok placed) :
    data = other := by
  obtain ⟨bytes, metaFrame⟩ := placed
  obtain ⟨schema, held, built, hwritten, hbuilt, hshort, rfl, rfl⟩ := build_ok h
  obtain ⟨schema', held', built', hwritten', hbuilt', hshort', hbytes, hmeta⟩ := build_ok h'
  have hreader : ∀ S, built'.reader S = built.reader S := by
    intro S
    rw [Segment.BuiltSegment.reader, Segment.BuiltSegment.reader, hbytes, hmeta]
  have hsame : built'.segmentMeta = built.segmentMeta := by
    have hfound := Segment.segmentMeta_built A.lawful hbuilt (hshort.trans (by decide)) schema
    have hfound' := Segment.segmentMeta_built A.lawful hbuilt' (hshort'.trans (by decide)) schema
    rw [hreader] at hfound'
    exact Except.ok.inj (hfound'.symm.trans hfound)
  obtain ⟨hid, hcount, hfingerprint, -, hcolumns, hblockRows⟩ := segmentMeta_eq hwritten hbuilt
  obtain ⟨hid', hcount', hfingerprint', -, hcolumns', hblockRows'⟩ := segmentMeta_eq hwritten' hbuilt'
  rw [hsame] at hid' hcount' hfingerprint' hcolumns' hblockRows'
  have hshapes : shapes schema'.fields = shapes schema.fields := by
    apply anonymous_eq_iff.mp
    apply A.tellsApart
    rw [hwritten.stamp, hwritten'.stamp, ← hfingerprint, ← hfingerprint']
  obtain ⟨page, hpage, hrows⟩ := rows_read hwritten hbuilt hshort rfl
  obtain ⟨page', hpage', hrows'⟩ := rows_read hwritten' hbuilt' hshort' hshapes
  rw [hreader, ← hcount', hcount] at hpage'
  obtain rfl := Except.ok.inj (hpage.symm.trans hpage')
  cases data
  cases other
  simp only [SegmentData.mk.injEq] at *
  exact ⟨hid.symm.trans hid', hfingerprint.symm.trans hfingerprint', hcolumns.symm.trans hcolumns', hrows.symm.trans hrows',
    hblockRows.symm.trans hblockRows'⟩

theorem length_build (h : A.build data = .ok (bytes, metaFrame)) : 0 < bytes.length := by
  obtain ⟨schema, held, built, -, hbuilt, -, rfl, -⟩ := build_ok h
  obtain ⟨_, _, _, -, -, -, -, -, -, hall, -⟩ := Segment.buildSegment_ok hbuilt
  rw [hall, List.length_append, Frame.length_encode, Frame.headerLen]
  omega

end Built

/-- The segments of such arrays. -/
def format : SegmentFormat ν where
  build := A.build
  injective := build_injective
  nonempty := length_build

variable (file : ByteFile) (s : Snapshot DataType ν)

/-- Take the bytes of a segment out of the file, and decode what is asked of them (`read_segment_pages`). -/
def readSegment (entry : SegmentEntry) (projection : Option (List Nat)) (keep : Option (List Bool)) :
    Outcome Error (List Segment.RecordBatch) := do
  let bytes ← Outcome.ofExcept (file.readAt entry.data)
  Segment.readSegmentPages A.kit bytes entry.data.offset entry.metaFrame s.schema s.layout (s.deletes entry.segmentId) projection
    keep env.options.scanBatchRows

/-- Read the projected columns of all live segments. -/
def scanSegments (projection : Option (List Nat)) : Outcome Error (List Segment.RecordBatch) := do
  let segments ← s.liveSegments.mapM fun entry => A.readSegment file s entry projection none
  return segments.flatten

section Reads

variable {A} {file s} {C : Codecs DataType ν} {entry : SegmentEntry} {projection : Option (List Nat)}

/-- A segment that is read is the one its bytes were built from. -/
theorem bytes_of_segment (hformat : C.segments = A.format)
    (h : (ByteMedia C).read file entry.data (.segment entry.metaAt) = .ok (.segment data)) :
    ∃ bytes, file.readAt entry.data = .ok bytes ∧ A.build data = .ok (bytes, entry.metaAt) := by
  obtain ⟨bytes, hbytes, hdecode⟩ := bind_eq_ok.mp h
  refine ⟨bytes, hbytes, ?_⟩
  change Blob.segment <$> C.segments.read bytes entry.metaAt = .ok (.segment data) at hdecode
  rw [hformat] at hdecode
  cases hfound : A.format.read bytes entry.metaAt with
  | error e =>
      rw [hfound] at hdecode
      cases hdecode
  | ok found =>
      rw [hfound] at hdecode
      obtain rfl := Blob.segment.inj (Except.ok.inj hdecode)
      exact SegmentFormat.read_eq_ok.mp hfound

/-- A read of the rows of a segment, without the arithmetic of the places it reads from. -/
theorem readSegmentPages_eq {M : Media DataType ν} {file : M.File} (hdata : segmentReader file entry s.layout = .ok data)
    (hprojection : ∀ indices ∈ projection, ∀ index ∈ indices, index < s.schema.fields.length)
    (pageRows : SegmentData ν → Nat) (keep : Option (List Bool)) :
    ∃ fields, readSegmentPages env file pageRows s entry projection keep = .ok (Segment.pagesOf (s.deletes entry.segmentId)
      (match keep with
        | none => [(0, data.rows.length)]
        | some keep => keptRanges (pageRows data) data.rows.length keep)
      data.blockRows env.options.scanBatchRows
      ⟨fields, data.rows.map fun row => projectRow projection (padRow env s.schema.fields data row)⟩) := by
  obtain ⟨fields, hproject⟩ : ∃ fields, ∀ start len, (readRows env s.schema.fields data start len).project projection =
      .ok ⟨fields, (readRows env s.schema.fields data start len).rows.map (projectRow projection)⟩ := by
    cases projection with
    | none =>
        refine ⟨s.schema.fields, fun start len => congrArg Except.ok ?_⟩
        exact congrArg (RecordBatch.mk s.schema.fields) (List.map_id _).symm
    | some indices =>
        refine ⟨indices.filterMap fun index => s.schema.fields[index]?, fun start len => if_pos ?_⟩
        exact List.all_eq_true.mpr fun index hindex => decide_eq_true (hprojection indices rfl index hindex)
  let shown : RecordBatch DataType ν :=
    ⟨fields, data.rows.map fun row => projectRow projection (padRow env s.schema.fields data row)⟩
  have hslice : ∀ start len, (⟨fields, (readRows env s.schema.fields data start len).rows.map (projectRow projection)⟩ :
      RecordBatch DataType ν) = shown.slice start len := by
    intro start len
    rw [RecordBatch.slice, readRows, List.map_map, ← List.map_drop, ← List.map_take]
    rfl
  let piece := fun range : Nat × Nat =>
    let page := dropDeleted (s.deletes entry.segmentId) range.1 (shown.slice range.1 range.2)
    if page.numRows = 0 then [] else sliceBatches page env.options.scanBatchRows
  refine ⟨fields, bind_eq_ok.mpr ⟨data, hdata, bind_eq_ok.mpr ⟨_, mapM_eq_ok (g := piece) fun range _ => ?_, ?_⟩⟩⟩
  · dsimp only
    rw [hproject, hslice]
    rfl
  · exact congrArg Except.ok (List.flatMap_def ..).symm

/-- What reading a listed segment relies on. -/
structure Listed (A : Arrays env) (C : Codecs DataType ν) (file : ByteFile) (s : Snapshot DataType ν) (entry : SegmentEntry)
    (data : SegmentData ν) : Prop where
  read : (ByteMedia C).read file entry.data (.segment entry.metaAt) = .ok (.segment data)
  suits : Table.Suits env s.schema data
  layout : s.layout = schemaLayout env s.schema
  framed : entry.data.offset ≤ entry.metaFrame.offset
  nulls : ∀ field ∈ s.schema.fields.drop data.columns,
    A.meaning.Fits field.dataType (List.replicate data.rows.length A.meaning.null)

theorem Listed.opens (h : Listed A C file s entry data) : segmentReader (M := ByteMedia C) file entry s.layout = .ok data :=
  segmentReader_eq_ok h.read (h.layout ▸ h.suits.1)

/-- What the engine makes of the bytes of a segment is what a read of its rows hands back, batch for batch. -/
theorem readSegment_refines (hformat : C.segments = A.format) (h : Listed A C file s entry data)
    (hprojection : ∀ indices ∈ projection, ∀ index ∈ indices, index < s.schema.fields.length) (keep : Option (List Bool)) :
    ∃ pages batches, A.readSegment file s entry projection keep = .ok pages ∧
      readSegmentPages (M := ByteMedia C) env file A.pageRows s entry projection keep = .ok batches ∧
      pages.map (Segment.RecordBatch.across A.meaning) = batches.map RecordBatch.rows := by
  obtain ⟨bytes, hbytes, hbuild⟩ := bytes_of_segment hformat h.read
  obtain ⟨schema, held, built, hwritten, hbuilt, hshort, rfl, hmeta⟩ := build_ok hbuild
  obtain ⟨-, hcount, -, hpages, -, hblockRows⟩ := segmentMeta_eq hwritten hbuilt
  have hplaced : (built.placed entry.data.offset).2 = entry.metaFrame := by
    rw [Segment.BuiltSegment.placed, hmeta, SegmentEntry.metaAt]
    dsimp only
    rw [Nat.add_sub_cancel' h.framed]
  have haccepts := h.suits.1
  rw [← h.layout, ← hwritten.columns] at haccepts
  have hrows : Segment.rowsOf held < 2 ^ 63 := hwritten.rowsOf ▸ hwritten.few
  obtain ⟨fields, hbatches⟩ := readSegmentPages_eq (M := ByteMedia C) h.opens hprojection A.pageRows keep
  obtain ⟨pages, hpages', hacross⟩ := Segment.readSegmentPages_across A.lawful A.masks hwritten.sound hwritten.known
    (hwritten.widens A.tellsApart h.suits h.nulls) hbuilt hshort hrows haccepts entry.data.offset hprojection
    (s.deletes entry.segmentId) keep env.options.scanBatchRows fields
  rw [hplaced] at hpages'
  refine ⟨pages, _, ?_, hbatches, ?_⟩
  · unfold readSegment
    rw [hbytes]
    exact hpages'
  · have hshown : Segment.seen A.meaning schema s.schema held projection =
        data.rows.map fun row => projectRow projection (padRow env s.schema.fields data row) := by
      rw [Segment.seen, hwritten.rows, hwritten.columns, A.null]
      rfl
    rw [hacross, hshown, hblockRows]
    cases keep with
    | none => simp only [Segment.rangesAsked, hcount]
    | some keep => simp only [Segment.rangesAsked, hcount, hpages]

/-- A read of a whole segment sees the rows of it that are not deleted. -/
theorem readSegment_rows (hformat : C.segments = A.format) (h : Listed A C file s entry data)
    (hprojection : ∀ indices ∈ projection, ∀ index ∈ indices, index < s.schema.fields.length) :
    ∃ pages, A.readSegment file s entry projection none = .ok pages ∧
      pages.flatMap (Segment.RecordBatch.across A.meaning) =
        ((data.live ((s.deletes entry.segmentId).getD ∅)).map fun row => padRow env s.schema.fields data row.1).map
          (projectRow projection) := by
  obtain ⟨pages, batches, hpages, hbatches, hacross⟩ := readSegment_refines hformat h hprojection none
  have hall : (data.live ((s.deletes entry.segmentId).getD ∅)).filter (fun row => pageKept (A.pageRows data) none row.2) =
      data.live ((s.deletes entry.segmentId).getD ∅) := List.filter_eq_self.mpr fun _ _ => rfl
  obtain ⟨other, hother, hrows⟩ : ∃ batches, readSegmentPages (M := ByteMedia C) env file A.pageRows s entry projection none =
      .ok batches ∧ rowsOf batches = _ := readSegmentPages_rows h.opens (.inl rfl) hprojection
  obtain rfl := Except.ok.inj (hbatches.symm.trans hother)
  refine ⟨pages, hpages, ?_⟩
  rw [List.flatMap_def, hacross, ← List.flatMap_def]
  change rowsOf batches = _
  rw [hrows, hall, List.map_map]
  rfl

/-- The same rows as a read of the rows of the segment. -/
theorem readSegment_ok (hformat : C.segments = A.format) (h : Listed A C file s entry data)
    (hprojection : ∀ indices ∈ projection, ∀ index ∈ indices, index < s.schema.fields.length)
    {batches : List (RecordBatch DataType ν)} (hread : LocalTables.readSegment (M := ByteMedia C) env file s entry = .ok batches) :
    ∃ pages, A.readSegment file s entry projection none = .ok pages ∧
      pages.flatMap (Segment.RecordBatch.across A.meaning) = (LocalTables.rowsOf batches).map (projectRow projection) := by
  obtain ⟨pages, hpages, hacross⟩ := readSegment_rows hformat h hprojection
  obtain ⟨data', hdata, hrows⟩ := readSegmentAs_rows hread
  obtain rfl := Except.ok.inj (hdata.symm.trans h.opens)
  refine ⟨pages, hpages, ?_⟩
  rw [hacross, hrows]

end Reads

section Runs

variable {A} {file} {s} {C : Codecs DataType ν} {t : Table (ByteMedia C)} {entry : SegmentEntry} {projection : Option (List Nat)}

/-- A column that may hold null can hold as many as a segment has rows. -/
def ShowsNulls (schema : Schema DataType) : Prop :=
  ∀ field ∈ schema.fields, field.nullable = true → ∀ rows < 2 ^ 63,
    A.meaning.Fits field.dataType (List.replicate rows A.meaning.null)

/-- One segment after another, read as bytes and read as rows. -/
theorem mapM_readSegment {entries : List SegmentEntry} {found : List (List (RecordBatch DataType ν))}
    (hone : ∀ entry ∈ entries, ∀ batches, LocalTables.readSegment (M := ByteMedia C) env file s entry = .ok batches →
      ∃ pages, A.readSegment file s entry projection none = .ok pages ∧
        pages.flatMap (Segment.RecordBatch.across A.meaning) = (LocalTables.rowsOf batches).map (projectRow projection))
    (hfound : (entries.mapM fun entry => LocalTables.readSegment (M := ByteMedia C) env file s entry) = .ok found) :
    ∃ pages, (entries.mapM fun entry => A.readSegment file s entry projection none) = .ok pages ∧
      pages.flatten.flatMap (Segment.RecordBatch.across A.meaning) =
        (LocalTables.rowsOf found.flatten).map (projectRow projection) := by
  have hforall := mapM_ok hfound
  clear hfound
  induction hforall with
  | nil => exact ⟨[], rfl, rfl⟩
  | @cons entry batches entries found hread _ ih =>
      obtain ⟨first, hfirst, hrows⟩ := hone entry List.mem_cons_self batches hread
      obtain ⟨pages, hpages, hmore⟩ := ih fun other hother => hone other (List.mem_cons_of_mem _ hother)
      refine ⟨first :: pages, ?_, ?_⟩
      · rw [List.mapM_cons, hfirst, hpages]
        rfl
      · rw [List.flatten_cons, List.flatten_cons, List.flatMap_append, rowsOf_append, List.map_append, hrows, hmore]

theorem listed {old fresh : List (WalRecord DataType ν)} (h : t.Durable env old fresh) (hformat : C.segments = A.format)
    (hnulls : A.ShowsNulls t.schema.schema) (hentry : entry ∈ t.writer.file.committed.manifest.segments) :
    ∃ data, Listed A C t.writer.file.io.file t.current entry data := by
  obtain ⟨data, hstores, hsuits⟩ := h.accepted entry hentry
  have hschema : t.current.schema = t.schema.schema := h.whole.tidy.shownSchema
  obtain ⟨bytes, -, hbuild⟩ := bytes_of_segment hformat hstores.read
  obtain ⟨schema, held, built, hwritten, -⟩ := build_ok hbuild
  refine ⟨data, hstores.read, ?_, ?_, h.framed entry hentry, ?_⟩
  · rw [hschema]
    exact hsuits
  · rw [hschema, h.whole.tidy.shownLayout]
    exact h.whole.layout
  · intro field hfield
    rw [hschema] at hfield
    apply hnulls field (List.mem_of_mem_drop hfield) (hsuits.2 field hfield)
    exact hwritten.few

/-- In every state that any calls, housekeeping, added and renamed columns, and crashes lead to, the bytes of the file show the
rows of the table. Whatever pages of a listed segment are kept, what is decoded of its bytes is what the read of its rows hands
back; a scan takes no bytes but those of the extents listed, and finds in them all that is not in the memtable. -/
theorem bytes_show_rows {events : List (Bag.Shaped.Event (Change DataType) RowId (Row ν))} (hformat : C.segments = A.format)
    (hrun : Simulation.Run (Table.IsNew (M := ByteMedia C) env) (Table.Evolves env) events t)
    (hnulls : A.ShowsNulls t.schema.schema)
    (hprojection : ∀ indices ∈ projection, ∀ index ∈ indices, index < t.schema.schema.fields.length) :
    (∀ entry ∈ t.writer.file.committed.manifest.segments, ∀ keep, ∃ pages batches,
      A.readSegment t.writer.file.io.file t.current entry projection keep = .ok pages ∧
        readSegmentPages (M := ByteMedia C) env t.writer.file.io.file A.pageRows t.current entry projection keep = .ok batches ∧
        pages.map (Segment.RecordBatch.across A.meaning) = batches.map RecordBatch.rows) ∧
    ∃ pages, A.scanSegments t.writer.file.io.file t.current projection = .ok pages ∧
      (↑(pages.flatMap (Segment.RecordBatch.across A.meaning) ++
          (LocalTables.rowsOf t.current.memtable).map (projectRow projection)) : Multiset (Row ν)) =
        (t.held env).map fun held => projectRow projection held.2 := by
  obtain ⟨old, fresh, h⟩ := Table.evolved_durable hrun
  have hcolumns : ∀ indices ∈ projection, ∀ index ∈ indices, index < t.current.schema.fields.length := by
    rw [h.whole.tidy.shownSchema]
    exact hprojection
  constructor
  · intro entry hentry keep
    obtain ⟨data, hlisted⟩ := listed h hformat hnulls hentry
    exact readSegment_refines hformat hlisted hcolumns keep
  · obtain ⟨all, hscan, hrows⟩ := h.scanned
    obtain ⟨found, hfound, hall⟩ := bind_eq_ok.mp hscan
    obtain rfl := Except.ok.inj hall
    have hone : ∀ entry ∈ t.current.liveSegments, ∀ batches,
        LocalTables.readSegment (M := ByteMedia C) env t.writer.file.io.file t.current entry = .ok batches →
        ∃ pages, A.readSegment t.writer.file.io.file t.current entry projection none = .ok pages ∧
          pages.flatMap (Segment.RecordBatch.across A.meaning) = (LocalTables.rowsOf batches).map (projectRow projection) := by
      intro entry hentry batches hread
      obtain ⟨data, hlisted⟩ := listed h hformat hnulls (h.kept.synced.manifest ▸ List.mem_of_mem_filter hentry)
      exact readSegment_ok hformat hlisted hcolumns hread
    obtain ⟨pages, hpages, hacross⟩ := mapM_readSegment hone hfound
    refine ⟨pages.flatten, ?_, ?_⟩
    · unfold scanSegments
      rw [hpages]
      rfl
    · have hmemtable : LocalTables.rowsOf (t.current.memtable.flatMap fun batch => sliceBatches batch env.options.scanBatchRows) =
          LocalTables.rowsOf t.current.memtable := by
        rw [LocalTables.rowsOf, List.flatMap_assoc]
        exact List.flatMap_congr fun batch _ => rowsOf_sliceBatches batch _
      calc (↑(pages.flatten.flatMap (Segment.RecordBatch.across A.meaning) ++
              (LocalTables.rowsOf t.current.memtable).map (projectRow projection)) : Multiset (Row ν))
        _ = (t.rows env).map (projectRow projection) := by
            rw [hacross, ← hrows, rowsOf_append, hmemtable, Multiset.map_coe, List.map_append]
        _ = (t.held env).map fun held => projectRow projection held.2 := by
            rw [← Table.map_held, Multiset.map_map]
            rfl

end Runs

end Arrays

section Witness

/-! A table of numbers in a file of bytes. -/

/-- Those columns come first that a table of numbers has, and that it has with a column of nulls. -/
def knownColumns : List (List (Field DataType)) :=
  [anonymous [], anonymous Segment.numberSchema.fields, anonymous Segment.grownSchema.fields]

def unblockedOptions : Segment.Options := { Segment.blockedOptions with compressionBlockRows := 0 }

/-- Columns of numbers and of nulls. -/
noncomputable def bytesEnv : Env DataType (Option UInt8) where
  options := plainOptions
  codec := numberedCodec [.insert 1 0 ⟨[.leaf .int8], [[some 7], [some 8]]⟩]
  checksum bytes := bytes.foldl (fun sum byte => 31 * sum + UInt64.ofNat byte.toNat) 7
  schemaHash := numbering knownColumns
  null := none
  isNull value := value.isNone
  memorySize batch := 8 * batch.numRows
  worthBlocking type := Segment.worthBlocking (unblockedOptions.compression.codecFor type) type
  isEncodable _ := true
  encodeValue _ value := .ok (value.toList)
  canCast _ _ := false
  cast _ _ value := .ok value
  misread _ data := .ok data.rows
  sortUnstable _ rows := rows
  sortUnstable_perm _ rows := .refl rows
  drain ids := ids
  drain_perm ids := .refl ids

theorem bytesEnv_tellsApart : TellsApart bytesEnv := fun _ _ h => numbering_inj knownColumns h

def twoNumbers : List Segment.RecordBatch := [⟨Segment.numberSchema, [Segment.numbers [7, 8]], 2⟩]

/-- The metadata of two numbers. -/
def twoNumbersMeta : Segment.SegmentMeta :=
  match Segment.buildSegment Segment.emptyArchive 0 Segment.numberSchema 1 twoNumbers unblockedOptions with
  | .ok built => built.segmentMeta
  | .error _ => ⟨0, 0, 0, 0, 0, []⟩

def twoNumbersKit : Segment.Kit := Segment.maskedKit (Segment.soleKit twoNumbersMeta)

theorem twoNumbersKit_lawful : twoNumbersKit.Lawful Segment.plainMeaning := by
  apply Segment.maskedKit_lawful
  apply Segment.soleKit_lawful
  decide +kernel

/-- The numbers in the rows of one column. -/
def numbersOf (rows : List (Row (Option UInt8))) : Bytes := rows.filterMap fun row => row.head?.join

/-- Rows of one number each come in one array. -/
noncomputable def oneArray (data : SegmentData (Option UInt8)) : Except Error (Schema DataType × List Segment.RecordBatch) :=
  if data.rows = (numbersOf data.rows).map (fun byte => [some byte]) ∧ data.columns = 1 ∧ data.blockRows = 0 ∧
      data.rows.length ≤ Segment.allocLimit ∧
      bytesEnv.schemaHash (anonymous Segment.numberSchema.fields) = data.schemaFingerprint
  then .ok (Segment.numberSchema, [⟨Segment.numberSchema, [Segment.numbers (numbersOf data.rows)], data.rows.length⟩])
  else .error (.unsupported "another column")

theorem oneArray_written {data : SegmentData (Option UInt8)} {schema : Schema DataType} {held : List Segment.RecordBatch}
    (h : oneArray data = .ok (schema, held)) : data.Written bytesEnv Segment.plainMeaning schema held := by
  unfold oneArray at h
  split at h
  · next hfits =>
      obtain ⟨hrows, hcolumns, hblockRows, hfew, hstamp⟩ := hfits
      obtain ⟨rfl, rfl⟩ := Prod.mk.inj (Except.ok.inj h)
      have hlength : (numbersOf data.rows).length = data.rows.length := by
        conv_rhs => rw [hrows]
        rw [List.length_map]
      refine {
        columns := hcolumns.symm
        stamp := hstamp
        blockRows := hblockRows
        sound := ?_
        known := ?_
        rows := ?_
        few := hfew.trans_lt (by decide) }
      · intro batch hbatch
        rw [List.mem_singleton.mp hbatch]
        exact .cons ⟨Segment.plain_numbers (hlength.le.trans hfew), rfl, hlength, fun _ => rfl⟩ .nil
      · intro field hfield
        rw [List.mem_singleton.mp hfield]
        exact ⟨Segment.numbers [], Segment.plain_numbers (Nat.zero_le _), rfl⟩
      · rw [List.flatMap_singleton]
        change Crossed.rows none data.rows.length [(numbersOf data.rows).map some] = data.rows
        rw [← hlength, ← List.length_map some, Crossed.rows_singleton, List.map_map]
        exact hrows.symm
  · cases h

noncomputable def numbersArrays : Arrays bytesEnv where
  kit := twoNumbersKit
  meaning := Segment.plainMeaning
  options := unblockedOptions
  lawful := twoNumbersKit_lawful
  masks := Segment.maskedKit_masks _
  null := rfl
  blockRows := rfl
  worthBlocking _ := rfl
  tellsApart := bytesEnv_tellsApart
  batches := oneArray
  written := oneArray_written

/-- A file of words. -/
noncomputable def wordCodecs : Codecs DataType (Option UInt8) where
  checksum := bytesEnv.checksum
  header := .ofWords FileHeader.words FileHeader.words_inj
  metaPage := .ofWords MetaPage.words MetaPage.words_inj
  manifest := .ofWords Manifest.words Manifest.words_inj
  schema := .ofWords (fun schema => [numbering [Segment.numberSchema, Segment.grownSchema] schema]) fun _ _ h =>
    numbering_inj _ (List.singleton_inj.mp h)
  deletes := .ofWords (fun rows => [numbering [] rows]) fun _ _ h => numbering_inj _ (List.singleton_inj.mp h)
  segments := numbersArrays.format

/-- Two numbers, and another column. -/
noncomputable def widenedBytes : Except Error (Table (ByteMedia wordCodecs) × Table (ByteMedia wordCodecs)) := do
  let t₀ ← Table.create bytesEnv (ByteMedia wordCodecs) Segment.numberSchema (fun _ => 0) (fun _ => []) none
  let (_, t₁) ← t₀.insertLocked bytesEnv [⟨Segment.numberSchema.fields, [[some 7], [some 8]]⟩]
  let t₂ ← t₁.change bytesEnv (.addColumn ⟨"added", .leaf .null, true⟩)
  return (t₁, t₂)

theorem bytesEnv_showsNulls : numbersArrays.ShowsNulls Segment.grownSchema := by
  intro field hfield hnullable rows hrows
  rcases List.mem_cons.mp hfield with rfl | hfield
  · cases hnullable
  · rw [List.mem_singleton.mp hfield]
    refine .inr ⟨rfl, fun value hvalue => List.eq_of_mem_replicate hvalue, ?_⟩
    rw [List.length_replicate]
    exact hrows.trans (by decide)

theorem widenedBytes_run {t₁ t₂ : Table (ByteMedia wordCodecs)} (h : widenedBytes = .ok (t₁, t₂))
    (hunclustered : t₁.schema.clusterColumns = []) (hsome : ¬(t₁.frozen bytesEnv).isEmpty) {schema : Schema DataType}
    (hplan : (Change.addColumn ⟨"added", .leaf .null, true⟩).plan bytesEnv t₁.schema.schema = .ok (some (schema, false))) :
    ∃ events, Simulation.Run (Table.IsNew bytesEnv) (Table.Evolves bytesEnv) events t₂ := by
  obtain ⟨t₀, hcreate, h⟩ := bind_eq_ok.mp h
  obtain ⟨⟨_, u₁⟩, hinsert, h⟩ := bind_eq_ok.mp h
  obtain ⟨u₂, hchange, h⟩ := bind_eq_ok.mp h
  cases Except.ok.inj h
  have hstart : Simulation.Run (Table.IsNew bytesEnv) (Table.Evolves bytesEnv) [] t₀ := .start ⟨_, _, _, hcreate⟩
  exact ⟨_, Table.change_evolves (hstart.step (.happens (.write (.insert _ hinsert)))) hplan (.inl hunclustered)
    (fun hempty => absurd hempty hsome) hchange⟩

/-- Two numbers in a segment, and the nulls beside them, in the other order. -/
theorem two_numbers_shown : ∃ t : Table (ByteMedia wordCodecs),
    ((∀ entry ∈ t.writer.file.committed.manifest.segments, ∀ keep, ∃ pages batches,
      numbersArrays.readSegment t.writer.file.io.file t.current entry (some [1, 0]) keep = .ok pages ∧
        readSegmentPages (M := ByteMedia wordCodecs) bytesEnv t.writer.file.io.file numbersArrays.pageRows t.current entry
          (some [1, 0]) keep = .ok batches ∧
        pages.map (Segment.RecordBatch.across numbersArrays.meaning) = batches.map RecordBatch.rows) ∧
    ∃ pages, numbersArrays.scanSegments t.writer.file.io.file t.current (some [1, 0]) = .ok pages ∧
      (↑(pages.flatMap (Segment.RecordBatch.across numbersArrays.meaning) ++
          (rowsOf t.current.memtable).map (projectRow (some [1, 0]))) : Multiset (Row (Option UInt8))) =
        (t.held bytesEnv).map fun held => projectRow (some [1, 0]) held.2) ∧
    t.writer.file.committed.manifest.segments.map SegmentEntry.rowCount = [2] ∧ (t.held bytesEnv).card = 2 := by
  have hcheck : (widenedBytes.toOption.map fun result => decide (result.1.schema.clusterColumns = [] ∧
      ¬(result.1.frozen bytesEnv).isEmpty ∧
      ((Change.addColumn ⟨"added", .leaf .null, true⟩).plan bytesEnv result.1.schema.schema).toOption =
        some (some (Segment.grownSchema, false)) ∧
      result.2.schema.schema = Segment.grownSchema ∧
      result.2.writer.file.committed.manifest.segments.map SegmentEntry.rowCount = [2] ∧ result.2.current.liveRows = 2)) =
        some true := by decide +kernel
  obtain ⟨⟨t₁, t⟩, hresult, hcheck⟩ := Option.map_eq_some_iff.mp hcheck
  obtain ⟨hunclustered, hsome, hplan, hschema, hsegments, hlive⟩ := of_decide_eq_true hcheck
  obtain ⟨events, hrun⟩ := widenedBytes_run (toOption_eq_some.mp hresult) hunclustered hsome
    (toOption_eq_some.mp hplan)
  obtain ⟨old, fresh, hdurable⟩ := Table.evolved_durable hrun
  refine ⟨t, Arrays.bytes_show_rows rfl hrun (hschema ▸ bytesEnv_showsNulls) ?_, hsegments, ?_⟩
  · intro indices hindices index hindex
    obtain rfl := Option.some.inj hindices
    rw [hschema]
    revert index
    decide
  · rw [hdurable.liveRows, ← Table.map_held, Multiset.card_map] at hlive
    exact hlive

end Witness

end LocalTables
