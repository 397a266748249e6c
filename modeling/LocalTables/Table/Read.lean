import LocalTables.Columnar.Pages
import LocalTables.Table.Operations

/-! The rows a read of a segment hands back: those of the pages it keeps that are not deleted, each padded with nulls for
the columns the segment predates, and cut down to the columns asked for. -/

namespace LocalTables

variable {τ ν : Type} {M : Media τ ν}

/-- The columns at some positions. -/
def projectRow (projection : Option (List Nat)) (row : Row ν) : Row ν :=
  match projection with
  | none => row
  | some indices => indices.filterMap fun index => row[index]?

/-- Cut a batch down to the projected columns. -/
def RecordBatch.project (batch : RecordBatch τ ν) (projection : Option (List Nat)) : Except Error (RecordBatch τ ν) :=
  match projection with
  | none => .ok batch
  | some indices =>
      if indices.all (· < batch.fields.length) then
        .ok ⟨indices.filterMap fun index => batch.fields[index]?, batch.rows.map (projectRow projection)⟩
      else .error (.arrow "project index out of bounds")

/-- A row as a reader of a longer schema sees it. -/
def padRow (env : Env τ ν) (fields : List (Field τ)) (data : SegmentData ν) (row : Row ν) : Row ν :=
  row ++ List.replicate (fields.length - data.columns) env.null

/-- The rows of a segment that are not deleted, with their positions. -/
def SegmentData.live (data : SegmentData ν) (deleted : Finset Nat) : List (Row ν × Nat) :=
  data.rows.zipIdx.filter fun entry => entry.2 ∉ deleted

variable (env : Env τ ν)

/-- A decoded range, without the rows a snapshot has deleted. -/
def dropDeleted (deletes : Option (Finset Nat)) (start : Nat) (page : RecordBatch τ ν) : RecordBatch τ ν :=
  match deletes with
  | none => page
  | some deleted => if deleted = ∅ then page else filterRange deleted start page

/-- Read a segment, keeping only the pages a caller still wants (`read_segment_pages`). -/
def readSegmentPages (file : M.File) (pageRows : SegmentData ν → Nat) (s : Snapshot τ ν) (entry : SegmentEntry)
    (projection : Option (List Nat)) (keep : Option (List Bool)) : Except Error (List (RecordBatch τ ν)) := do
  let data ← segmentReader file entry s.layout
  let rows := data.rows.length
  let ranges := match keep with
    | none => [(0, rows)]
    | some keep => keptRanges (pageRows data) rows keep
  let pages ← (splitAtBlocks ranges data.blockRows).mapM fun (start, len) => do
    let page ← (readRows env s.schema.fields data start len).project projection
    let page := dropDeleted (s.deletes entry.segmentId) start page
    return if page.numRows = 0 then [] else sliceBatches page env.options.scanBatchRows
  return pages.flatten

section Open

theorem segmentReader_ok {file : M.File} {entry : SegmentEntry} {layout : List Nat} {data : SegmentData ν}
    (h : segmentReader file entry layout = .ok data) :
    M.read file entry.data (.segment entry.metaAt) = .ok (.segment data) ∧
      layoutAccepts layout data.columns data.schemaFingerprint = true := by
  obtain ⟨blob, hread, h⟩ := bind_eq_ok.mp h
  split at h
  · split at h
    · next haccepts =>
        obtain rfl := Except.ok.inj h
        exact ⟨hread, haccepts⟩
    · cases h
  · cases h

theorem segmentReader_eq_ok {file : M.File} {entry : SegmentEntry} {layout : List Nat} {data : SegmentData ν}
    (hread : M.read file entry.data (.segment entry.metaAt) = .ok (.segment data))
    (haccepts : layoutAccepts layout data.columns data.schemaFingerprint = true) :
    segmentReader file entry layout = .ok data :=
  bind_eq_ok.mpr ⟨_, hread, if_pos haccepts⟩

end Open

section Rows

variable {env} {deletes : Option (Finset Nat)} {data : SegmentData ν} {fields : List (Field τ)}

theorem rows_filterRange (deleted : Finset Nat) (xs : List (Row ν)) (start len : Nat) (fields : List (Field τ)) :
    (filterRange deleted start (⟨fields, (xs.drop start).take len⟩ : RecordBatch τ ν)).rows =
      (((xs.zipIdx.drop start).take len).filter fun entry => entry.2 ∉ deleted).map Prod.fst := by
  have hshift : (xs.zipIdx.drop start).take len =
      ((xs.drop start).take len).zipIdx.map fun entry => (entry.1, start + entry.2) := by
    refine List.ext_getElem? fun index => ?_
    rw [List.getElem?_map, List.getElem?_zipIdx, List.getElem?_take, List.getElem?_take, List.getElem?_drop,
      List.getElem?_drop, List.getElem?_zipIdx]
    split
    · cases xs[start + index]? with
      | none => rfl
      | some row => simp
    · rfl
  rw [hshift, filterRange, List.filter_map, List.map_map]
  rfl

theorem rows_dropDeleted (xs : List (Row ν)) (start len : Nat) (fields : List (Field τ)) :
    (dropDeleted deletes start (⟨fields, (xs.drop start).take len⟩ : RecordBatch τ ν)).rows =
      (((xs.zipIdx.drop start).take len).filter fun entry => entry.2 ∉ deletes.getD ∅).map Prod.fst := by
  have hall : (((xs.zipIdx.drop start).take len).filter fun entry => entry.2 ∉ (∅ : Finset Nat)).map Prod.fst =
      (xs.drop start).take len := by
    simp [List.map_take, List.map_drop]
  unfold dropDeleted
  split
  · exact hall.symm
  · next deleted =>
      split
      · next hempty =>
          rw [Option.getD_some, hempty]
          exact hall.symm
      · exact rows_filterRange deleted xs start len fields

theorem rows_range (env : Env τ ν) (deletes : Option (Finset Nat)) (data : SegmentData ν) (fields fields' : List (Field τ))
    (start len : Nat) (projection : Option (List Nat)) :
    (dropDeleted deletes start (⟨fields', ((readRows env fields data start len).rows).map (projectRow projection)⟩ :
      RecordBatch τ ν)).rows =
      (((data.rows.zipIdx.drop start).take len).filter fun entry => entry.2 ∉ deletes.getD ∅).map
        fun entry => projectRow projection (padRow env fields data entry.1) := by
  have hrows : ((readRows env fields data start len).rows).map (projectRow projection) =
      (((data.rows.map fun row => projectRow projection (padRow env fields data row)).drop start).take len) := by
    rw [readRows, List.map_map, ← List.map_drop, ← List.map_take]
    rfl
  rw [hrows, rows_dropDeleted, List.zipIdx_map, ← List.map_drop, ← List.map_take, List.filter_map, List.map_map]
  rfl

/-- The pieces of a segment, read one after another, are its live rows among those the ranges name. -/
theorem rows_pieces (ranges : List (Nat × Nat)) (f : Row ν × Nat → Row ν) :
    (ranges.flatMap fun range => (((data.rows.zipIdx.drop range.1).take range.2).filter fun entry =>
      entry.2 ∉ deletes.getD ∅).map f) =
      ((pieces data.rows.zipIdx ranges).filter fun entry => entry.2 ∉ deletes.getD ∅).map f := by
  induction ranges with
  | nil => rfl
  | cons range ranges ih => rw [List.flatMap_cons, ih, pieces_cons, List.filter_append, List.map_append]

theorem rowsOf_page (page : RecordBatch τ ν) (rows : Nat) :
    rowsOf (if page.numRows = 0 then [] else sliceBatches page rows) = page.rows := by
  split
  · next hzero => exact (List.length_eq_zero_iff.mp hzero).symm
  · exact rowsOf_sliceBatches page rows

/-- What a snapshot's segment holds, as a reader of some fields sees it. -/
theorem readSegmentAs_rows {file : M.File} {s : Snapshot τ ν} {entry : SegmentEntry} {layout : List Nat}
    {batches : List (RecordBatch τ ν)} (h : readSegmentAs env file s entry fields layout = .ok batches) :
    ∃ data, segmentReader file entry layout = .ok data ∧
      rowsOf batches = (data.live ((s.deletes entry.segmentId).getD ∅)).map fun row => padRow env fields data row.1 := by
  obtain ⟨data, hdata, h⟩ := bind_eq_ok.mp h
  refine ⟨data, hdata, ?_⟩
  rw [← Except.ok.inj h, rowsOf, List.flatMap_assoc]
  have hrange : ∀ range : Nat × Nat, (if (dropDeleted (s.deletes entry.segmentId) range.1
        (readRows env fields data range.1 range.2)).numRows = 0 then []
      else sliceBatches (dropDeleted (s.deletes entry.segmentId) range.1
        (readRows env fields data range.1 range.2)) env.options.scanBatchRows).flatMap RecordBatch.rows =
      (((data.rows.zipIdx.drop range.1).take range.2).filter fun row =>
        row.2 ∉ (s.deletes entry.segmentId).getD ∅).map fun row => padRow env fields data row.1 := by
    intro range
    refine (rowsOf_page _ _).trans ?_
    have hnone : (readRows env fields data range.1 range.2).rows.map (projectRow none) =
        (readRows env fields data range.1 range.2).rows := List.map_id _
    have := rows_range env (s.deletes entry.segmentId) data fields fields range.1 range.2 none
    rw [hnone] at this
    exact this
  refine (List.flatMap_congr fun range _ => hrange range).trans ?_
  rw [rows_pieces, pieces_splitAtBlocks, pieces_singleton, List.drop_zero, List.take_of_length_le (by simp)]
  rfl

theorem readSegmentPages_rows {file : M.File} {pageRows : SegmentData ν → Nat} {s : Snapshot τ ν} {entry : SegmentEntry}
    {projection : Option (List Nat)} {keep : Option (List Bool)} {data : SegmentData ν}
    (hdata : segmentReader file entry s.layout = .ok data) (hpage : keep = none ∨ 0 < pageRows data)
    (hprojection : ∀ indices ∈ projection, ∀ index ∈ indices, index < s.schema.fields.length) :
    ∃ batches, readSegmentPages env file pageRows s entry projection keep = .ok batches ∧
      rowsOf batches = ((data.live ((s.deletes entry.segmentId).getD ∅)).filter fun row =>
        pageKept (pageRows data) keep row.2).map fun row => projectRow projection (padRow env s.schema.fields data row.1) := by
  obtain ⟨fields', hproject⟩ : ∃ fields', ∀ start len, (readRows env s.schema.fields data start len).project projection =
      .ok ⟨fields', (readRows env s.schema.fields data start len).rows.map (projectRow projection)⟩ := by
    cases projection with
    | none =>
        refine ⟨s.schema.fields, fun start len => congrArg Except.ok ?_⟩
        exact congrArg (RecordBatch.mk s.schema.fields) (List.map_id _).symm
    | some indices =>
        refine ⟨indices.filterMap fun index => s.schema.fields[index]?, fun start len => if_pos ?_⟩
        exact List.all_eq_true.mpr fun index hindex => decide_eq_true (hprojection indices rfl index hindex)
  let ranges := match keep with
    | none => [(0, data.rows.length)]
    | some keep => keptRanges (pageRows data) data.rows.length keep
  let page := fun range : Nat × Nat => dropDeleted (s.deletes entry.segmentId) range.1
    (⟨fields', (readRows env s.schema.fields data range.1 range.2).rows.map (projectRow projection)⟩ : RecordBatch τ ν)
  let pages := (splitAtBlocks ranges data.blockRows).map fun range =>
    if (page range).numRows = 0 then [] else sliceBatches (page range) env.options.scanBatchRows
  refine ⟨pages.flatten, ?_, ?_⟩
  · refine bind_eq_ok.mpr ⟨data, hdata, bind_eq_ok.mpr ⟨pages, mapM_eq_ok fun range _ => ?_, rfl⟩⟩
    dsimp only
    rw [hproject]
    rfl
  · have hall : pieces data.rows.zipIdx ranges =
        data.rows.zipIdx.filter fun row => pageKept (pageRows data) keep row.2 := by
      cases keep with
      | none =>
          refine (pieces_singleton _ _ _).trans ?_
          rw [List.drop_zero, List.take_of_length_le (by simp)]
          exact (List.filter_eq_self.mpr fun _ _ => rfl).symm
      | some keep => exact pieces_keptRanges data.rows (hpage.resolve_left (Option.some_ne_none keep)) keep
    rw [rowsOf_flatten, List.map_map]
    have hone : ∀ range : Nat × Nat, rowsOf (if (page range).numRows = 0 then []
        else sliceBatches (page range) env.options.scanBatchRows) =
        (((data.rows.zipIdx.drop range.1).take range.2).filter fun row =>
          row.2 ∉ (s.deletes entry.segmentId).getD ∅).map
            fun row => projectRow projection (padRow env s.schema.fields data row.1) := fun range =>
      (rowsOf_page _ _).trans (rows_range env _ data s.schema.fields fields' range.1 range.2 projection)
    refine (congrArg List.flatten (List.map_congr_left fun range _ => hone range)).trans ?_
    rw [← List.flatMap_def, rows_pieces, pieces_splitAtBlocks, hall, SegmentData.live, List.filter_comm]

end Rows

end LocalTables
