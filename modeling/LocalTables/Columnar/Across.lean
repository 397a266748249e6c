import LocalTables.Columnar.Building
import LocalTables.Columnar.Damage
import LocalTables.Columnar.Layout
import LocalTables.Lib.Crossed
import LocalTables.Table.Columns

/-! The rows that a read of a segment decodes. Its arrays, read across, are the rows of the table: cut at blocks and pages,
masked and sliced as arrays, they are cut, masked and sliced as rows. -/

namespace LocalTables

namespace Segment

open Outcome

variable {ν : Type} {K : Kit} {M : Meaning ν}

/-- The rows of a batch. -/
def RecordBatch.across (M : Meaning ν) (batch : RecordBatch) : List (Row ν) :=
  Crossed.rows M.null batch.numRows (batch.columns.map M.values)

/-- The columns of a batch are arrays of its own length. -/
def RecordBatch.Whole (M : Meaning ν) (batch : RecordBatch) : Prop :=
  ∀ column ∈ batch.columns, M.Valid column ∧ column.len = batch.numRows

/-- The documented behaviour of Arrow's filter: the rows a mask keeps. -/
structure Kit.Masks (K : Kit) (M : Meaning ν) : Prop where
  filter : ∀ {array mask}, M.Valid array → mask.length = array.len →
    ∃ kept, K.filter array mask = .ok kept ∧ M.Valid kept ∧ M.values kept = Crossed.kept mask (M.values array)

section Masked

/-- The same arrays, with a mask that takes the rows of a column of nulls as well. -/
def maskedKit (K : Kit) : Kit :=
  { K with filter := fun array mask => .ok (match array.buffers with
      | [bytes] => numbers (Crossed.kept mask bytes)
      | _ => nulls (mask.count true)) }

theorem maskedKit_lawful (L : K.Lawful M) : (maskedKit K).Lawful M := { L with }

theorem maskedKit_masks (K : Kit) : (maskedKit K).Masks plainMeaning where
  filter {array mask} h hlength := by
    have hcount : mask.count true ≤ mask.length := List.count_le_length
    obtain ⟨bytes, hbytes, rfl⟩ | ⟨rows, hrows, rfl⟩ := h
    · refine ⟨_, rfl, plain_numbers ?_, ?_⟩
      · rw [Crossed.length_kept hlength.symm]
        exact hcount.trans (hlength.le.trans hbytes)
      · exact Crossed.map_kept some _ _
    · refine ⟨_, rfl, plain_nulls (hcount.trans_lt (hlength ▸ hrows)), ?_⟩
      change List.replicate (mask.count true) none = Crossed.kept mask (List.replicate rows (none : Option UInt8))
      calc List.replicate (mask.count true) none
        _ = (Crossed.kept mask (List.replicate rows (none : Option UInt8))).map fun _ => none := by
            rw [List.map_const', Crossed.length_kept (by rw [List.length_replicate]; exact hlength.symm)]
        _ = Crossed.kept mask (List.replicate rows none) := by
            rw [Crossed.map_kept, List.map_replicate]

end Masked

theorem map_values {columns kept : List ArrayData} {change : List ν → List ν}
    (h : List.Forall₂ (fun column kept => M.values kept = change (M.values column)) columns kept) :
    kept.map M.values = (columns.map M.values).map change := by
  induction h with
  | nil => rfl
  | cons hone _ ih => rw [List.map_cons, List.map_cons, List.map_cons, hone, ih]

section Parts

variable {batch : RecordBatch} {start len rows : Nat}

@[simp] theorem length_across : (batch.across M).length = batch.numRows := Crossed.length_rows _ _

theorem across_slice (L : K.Lawful M) (h : batch.Whole M) (hinside : start + len ≤ batch.numRows) :
    (batch.slice K start len).across M = ((batch.across M).drop start).take len := by
  have hcolumns : (batch.columns.map fun column => K.slice column start len).map M.values =
      (batch.columns.map M.values).map fun values => (values.drop start).take len := by
    rw [List.map_map, List.map_map]
    apply List.map_congr_left
    intro column hcolumn
    obtain ⟨hvalid, hlen⟩ := h column hcolumn
    exact (L.slice hvalid (hinside.trans hlen.ge)).values
  rw [RecordBatch.across, RecordBatch.slice, hcolumns]
  exact Crossed.rows_part hinside _

theorem across_sliceBatches (L : K.Lawful M) (h : batch.Whole M) (count : Nat) (fields : List (Field DataType)) :
    (sliceBatches K batch count).map (RecordBatch.across M) =
      (LocalTables.sliceBatches (⟨fields, batch.across M⟩ : LocalTables.RecordBatch DataType ν) count).map
        LocalTables.RecordBatch.rows := by
  have hrows : (⟨fields, batch.across M⟩ : LocalTables.RecordBatch DataType ν).numRows = batch.numRows := length_across
  unfold sliceBatches LocalTables.sliceBatches
  rw [hrows]
  by_cases hnone : batch.numRows = 0
  · rw [if_pos hnone, if_pos hnone]
    rfl
  · rw [if_neg hnone, if_neg hnone]
    by_cases hwhole : count = 0 ∨ batch.numRows ≤ count
    · rw [if_pos hwhole, if_pos hwhole]
      rfl
    · rw [if_neg hwhole, if_neg hwhole, List.map_map, List.map_map]
      apply List.map_congr_left
      intro index hindex
      have hstart : index * count < batch.numRows := by
        have hmul := Nat.mul_le_of_le_div _ _ _ (Nat.succ_le_of_lt (List.mem_range.mp hindex))
        rw [Nat.succ_mul] at hmul
        omega
      have hcut : (batch.slice K (index * count) (min count (batch.numRows - index * count))).across M =
          ((batch.across M).drop (index * count)).take (min count (batch.numRows - index * count)) :=
        across_slice L h (by omega)
      have hlength : batch.numRows = (batch.across M).length := length_across.symm
      rw [Function.comp_apply, hcut, Function.comp_apply, LocalTables.RecordBatch.slice]
      dsimp only
      rw [hlength, ← List.length_drop, ← List.take_eq_take_min]

/-- A column without the rows a mask drops. -/
def filterColumn (K : Kit) (mask : List Bool) (column : ArrayData) : Outcome Error ArrayData :=
  match K.filter column mask with
  | .ok kept => Outcome.ofExcept (.ok kept)
  | .error message => .fail (.arrow message)

theorem filterColumn_ok (hmasks : K.Masks M) {mask : List Bool} {column : ArrayData} (hvalid : M.Valid column)
    (hlength : mask.length = column.len) :
    ∃ kept, filterColumn K mask column = .ok kept ∧ M.Valid kept ∧ M.values kept = Crossed.kept mask (M.values column) := by
  obtain ⟨kept, hfilter, hkept⟩ := hmasks.filter hvalid hlength
  refine ⟨kept, ?_, hkept⟩
  rw [filterColumn, hfilter]
  rfl

/-- The part of a mask that is over a range of rows. -/
theorem slice_mask {rows start len : Nat} (hinside : start + len ≤ rows) (deleted : Finset Nat) :
    (slice ((List.range rows).map fun row => decide (row ∉ deleted)) start (start + len) : Outcome Error (List Bool)) =
      .ok ((List.range len).map fun row => decide (start + row ∉ deleted)) := by
  rw [slice_eq (Nat.le_add_right _ _) (by simpa using hinside), Nat.add_sub_cancel_left]
  congr 1
  apply List.ext_getElem?
  intro index
  by_cases hindex : index < len
  · rw [List.getElem?_take, if_pos hindex, List.getElem?_drop, List.getElem?_map, List.getElem?_map,
      List.getElem?_range hindex, List.getElem?_range (by omega)]
    rfl
  · rw [List.getElem?_take, if_neg hindex, List.getElem?_eq_none (by simpa using hindex)]

theorem across_applyMask (L : K.Lawful M) (hmasks : K.Masks M) (h : batch.Whole M) (hlen : batch.numRows = len)
    (hinside : start + len ≤ rows) (deletes : Option (Finset Nat)) (fields : List (Field DataType)) :
    ∃ kept, applyMask K (keepMask deletes rows) start len batch = .ok kept ∧ kept.Whole M ∧
      kept.across M = (dropDeleted deletes start (⟨fields, batch.across M⟩ : LocalTables.RecordBatch DataType ν)).rows := by
  unfold applyMask keepMask dropDeleted
  cases deletes with
  | none => exact ⟨batch, rfl, h, rfl⟩
  | some deleted =>
      by_cases hempty : deleted = ∅
      · simp only [if_pos hempty]
        exact ⟨batch, rfl, h, rfl⟩
      · simp only [if_neg hempty]
        let mask := (List.range len).map fun row => decide (start + row ∉ deleted)
        have hlength : mask.length = batch.numRows := by rw [hlen, List.length_map, List.length_range]
        obtain ⟨columns, hcolumns, hkept⟩ := mapM_forall₂ (f := filterColumn K mask)
          (P := fun column kept => M.Valid kept ∧ M.values kept = Crossed.kept mask (M.values column))
          fun column (hcolumn : column ∈ batch.columns) => by
            obtain ⟨hvalid, hcount⟩ := h column hcolumn
            exact filterColumn_ok hmasks hvalid (hlength.trans hcount.symm)
        have hvalues : columns.map M.values = (batch.columns.map M.values).map (Crossed.kept mask) :=
          map_values (hkept.imp fun _ _ hone => hone.2)
        refine ⟨{ batch with columns := columns, numRows := mask.count true }, ?_, ?_, ?_⟩
        · exact bind_eq_ok.mpr ⟨mask, slice_mask hinside deleted, bind_eq_ok.mpr ⟨columns, hcolumns, rfl⟩⟩
        · intro kept hkeptColumn
          obtain ⟨index, hindex⟩ := List.getElem?_of_mem hkeptColumn
          obtain ⟨column, hcolumn, hvalid, hrows⟩ := forall₂_getElem? hkept hindex
          obtain ⟨hwhole, hcount⟩ := h column (List.mem_of_getElem? hcolumn)
          refine ⟨hvalid, ?_⟩
          rw [← L.length_values hvalid, hrows]
          exact Crossed.length_kept (by rw [L.length_values hwhole, hcount, hlength])
        · have hcolumnLengths : ∀ values ∈ batch.columns.map M.values, values.length = mask.length := by
            intro values hmem
            obtain ⟨column, hcolumn, rfl⟩ := List.mem_map.mp hmem
            rw [L.length_values (h column hcolumn).1, (h column hcolumn).2, hlength]
          rw [RecordBatch.across, hvalues]
          dsimp only
          rw [Crossed.rows_kept mask _ hcolumnLengths, hlength]
          change Crossed.kept mask (batch.across M) = _
          have hpositions : mask = (List.range (batch.across M).length).map fun row => decide (start + row ∉ deleted) := by
            rw [length_across, hlen]
          rw [hpositions, Crossed.kept_range]
          rfl

end Parts

theorem length_flatMap_across (batches : List RecordBatch) :
    (batches.flatMap (RecordBatch.across M)).length = rowsOf batches := by
  rw [List.length_flatMap, rowsOf]
  congr 1
  apply List.map_congr_left
  intro batch _
  exact length_across

section Columns

variable {schema readSchema : Schema DataType} {batches : List RecordBatch} {options : Options} {segmentId fingerprint : Nat}
  {built : BuiltSegment}

/-- A schema that has the columns of another, under whatever names, and then columns that may be null and have room for so
many nulls. -/
structure Widens (M : Meaning ν) (rows : Nat) (schema readSchema : Schema DataType) : Prop where
  shapes : shapes schema.fields = (shapes readSchema.fields).take schema.fields.length
  nullable : ∀ field ∈ readSchema.fields.drop schema.fields.length, field.nullable = true
  nulls : ∀ field ∈ readSchema.fields.drop schema.fields.length, M.Fits field.dataType (List.replicate rows M.null)

namespace Widens

variable {rows : Nat}

theorem of_shapes (h : LocalTables.shapes schema.fields = LocalTables.shapes readSchema.fields) :
    Widens M rows schema readSchema := by
  have hlength : schema.fields.length = readSchema.fields.length := by
    simpa [LocalTables.shapes] using congrArg List.length h
  refine ⟨?_, ?_, ?_⟩
  · rw [hlength, h, List.take_of_length_le (by simp [LocalTables.shapes])]
  · rw [hlength, List.drop_length]
    exact fun field hfield => absurd hfield List.not_mem_nil
  · rw [hlength, List.drop_length]
    exact fun field hfield => absurd hfield List.not_mem_nil

theorem length_le (h : Widens M rows schema readSchema) : schema.fields.length ≤ readSchema.fields.length := by
  have hlength := congrArg List.length h.shapes
  simp only [LocalTables.shapes, List.length_map, List.length_take] at hlength
  omega

theorem renames (h : Widens M rows schema readSchema) :
    Extends M rows schema ⟨schema.fields ++ readSchema.fields.drop schema.fields.length, []⟩ where
  fields := List.take_left
  nullable field hfield := h.nullable field (by rwa [List.drop_left] at hfield)
  nulls field hfield := h.nulls field (by rwa [List.drop_left] at hfield)

theorem field (h : Widens M rows schema readSchema) {index : Nat} {field : Field DataType}
    (hfield : readSchema.fields[index]? = some field) :
    ∃ old, (schema.fields ++ readSchema.fields.drop schema.fields.length)[index]? = some old ∧
      old.dataType = field.dataType ∧ old.nullable = field.nullable := by
  have hsame : LocalTables.shapes (schema.fields ++ readSchema.fields.drop schema.fields.length) =
      LocalTables.shapes readSchema.fields := by
    have hsplit := List.take_append_drop schema.fields.length (LocalTables.shapes readSchema.fields)
    rw [← h.shapes] at hsplit
    rw [← hsplit, LocalTables.shapes, LocalTables.shapes, LocalTables.shapes, List.map_append, List.map_drop]
  have hat := congrArg (fun list : List (DataType × Bool) => list[index]?) hsame
  simp only [LocalTables.shapes, List.getElem?_map, hfield, Option.map_some] at hat
  obtain ⟨old, hold, hpair⟩ := Option.map_eq_some_iff.mp hat
  exact ⟨old, hold, Prod.mk.inj hpair⟩

end Widens

/-- The rows of one column, read from a segment under other names. -/
theorem columnFrom_widened (L : K.Lawful M) (hbatches : ∀ batch ∈ batches, batch.Sound M schema)
    (hknown : ∀ field ∈ schema.fields, M.Known field.dataType) (hwidens : Widens M (rowsOf batches) schema readSchema)
    (h : buildSegment K segmentId schema fingerprint batches options = .ok built) (hbytes : built.bytes.length < 2 ^ 63)
    {index : Nat} {field : Field DataType} (hfield : readSchema.fields[index]? = some field)
    {start len : Nat} (hinside : start + len ≤ rowsOf batches) :
    ∃ part, SegmentReader.columnFrom K (segmentBytes built.bytes) built.segmentMeta field index start len = .ok part ∧
      HoldsValues M field (((columnValues M schema batches index).drop start).take len) part := by
  obtain ⟨old, hold, htype, hnullable⟩ := hwidens.field hfield
  obtain ⟨part, hpart, hholds⟩ := columnFrom_built L hbatches hknown hwidens.renames h hbytes hold hinside
  refine ⟨part, ?_, hholds.valid, hholds.dataType.trans htype, hholds.values, fun hnull => ?_⟩
  · unfold SegmentReader.columnFrom at hpart ⊢
    rw [← htype]
    exact hpart
  · apply hholds.nullCount
    rw [hnullable]
    exact hnull

/-- The columns of a segment make up the rows of its batches, with nulls for the columns it predates. -/
theorem across_columns (L : K.Lawful M) (hbatches : ∀ batch ∈ batches, batch.Sound M schema) :
    Crossed.rows M.null (rowsOf batches) ((List.range schema.fields.length).map (valuesAt M batches)) =
      batches.flatMap (RecordBatch.across M) := by
  induction batches with
  | nil => rfl
  | cons batch batches ih =>
      have hsound := hbatches batch List.mem_cons_self
      have hrest := ih fun other hother => hbatches other (List.mem_cons_of_mem _ hother)
      have hlength : ∀ index ∈ List.range schema.fields.length, (batch.valuesAt M index).length = batch.numRows := by
        intro index hindex
        obtain ⟨array, -, hcolumn, hvalues⟩ :=
          column_sound hsound (List.getElem?_eq_getElem (List.mem_range.mp hindex))
        rw [hvalues, L.length_values hcolumn.valid, hcolumn.len]
      have hcolumns : (List.range schema.fields.length).map (batch.valuesAt M) = batch.columns.map M.values := by
        have hcount : schema.fields.length = batch.columns.length := hsound.length_eq.symm
        apply List.ext_getElem?
        intro index
        rw [hcount, List.getElem?_map, List.getElem?_map]
        by_cases hindex : index < batch.columns.length
        · rw [List.getElem?_range hindex, List.getElem?_eq_getElem hindex, Option.map_some, RecordBatch.valuesAt,
            List.getElem?_eq_getElem hindex]
          rfl
        · rw [List.getElem?_eq_none (by simpa using hindex), List.getElem?_eq_none (by simpa using hindex)]
          rfl
      have hsplit : (List.range schema.fields.length).map (valuesAt M (batch :: batches)) =
          (List.range schema.fields.length).map fun index => batch.valuesAt M index ++ valuesAt M batches index := rfl
      rw [List.flatMap_cons, ← hrest, RecordBatch.across, ← hcolumns, hsplit]
      exact Crossed.rows_append _ hlength

/-- The same, of columns read under a longer schema. -/
theorem across_columnValues (L : K.Lawful M) (hbatches : ∀ batch ∈ batches, batch.Sound M schema) {width : Nat}
    (hwidth : schema.fields.length ≤ width) :
    Crossed.rows M.null (rowsOf batches) ((List.range width).map (columnValues M schema batches)) =
      (batches.flatMap (RecordBatch.across M)).map fun row =>
        row ++ List.replicate (width - schema.fields.length) M.null := by
  obtain ⟨more, rfl⟩ := Nat.exists_eq_add_of_le hwidth
  have hsplit : (List.range (schema.fields.length + more)).map (columnValues M schema batches) =
      (List.range schema.fields.length).map (valuesAt M batches) ++
        List.replicate more (List.replicate (rowsOf batches) M.null) := by
    rw [List.range_add, List.map_append, List.map_map]
    congr 1
    · apply List.map_congr_left
      intro index hindex
      rw [columnValues, if_pos (List.mem_range.mp hindex)]
    · apply List.eq_replicate_iff.mpr
      refine ⟨by simp, fun column hcolumn => ?_⟩
      obtain ⟨index, -, rfl⟩ := List.mem_map.mp hcolumn
      rw [Function.comp_apply, columnValues, if_neg (by omega)]
  rw [hsplit, Crossed.rows_fill, across_columns L hbatches, Nat.add_sub_cancel_left]

/-- The rows of a segment as a read sees them, under its schema and cut down to the projected columns. -/
def seen (M : Meaning ν) (schema readSchema : Schema DataType) (batches : List RecordBatch) (projection : Option (List Nat)) :
    List (Row ν) :=
  (batches.flatMap (RecordBatch.across M)).map fun row =>
    projectRow projection (row ++ List.replicate (readSchema.fields.length - schema.fields.length) M.null)

/-- The columns a read decodes make up the rows it sees. -/
theorem across_seen (built : BuiltSegment) (L : K.Lawful M) (hbatches : ∀ batch ∈ batches, batch.Sound M schema)
    (hwidth : schema.fields.length ≤ readSchema.fields.length) {projection : Option (List Nat)}
    (hprojection : ∀ indices ∈ projection, ∀ index ∈ indices, index < readSchema.fields.length) :
    Crossed.rows M.null (rowsOf batches)
        (((built.reader readSchema).indices projection).map (columnValues M schema batches)) =
      seen M schema readSchema batches projection := by
  have hall := across_columnValues L hbatches hwidth
  cases projection with
  | none => exact hall
  | some indices =>
      change Crossed.rows M.null (rowsOf batches) (indices.map (columnValues M schema batches)) = _
      rw [Crossed.rows_select (hprojection indices rfl), hall, List.map_map]
      rfl

/-- Some rows of the projected columns, read from a segment under other names. -/
theorem readRows_across (L : K.Lawful M) (hbatches : ∀ batch ∈ batches, batch.Sound M schema)
    (hknown : ∀ field ∈ schema.fields, M.Known field.dataType) (hwidens : Widens M (rowsOf batches) schema readSchema)
    (h : buildSegment K segmentId schema fingerprint batches options = .ok built) (hbytes : built.bytes.length < 2 ^ 63)
    {projection : Option (List Nat)}
    (hprojection : ∀ indices ∈ projection, ∀ index ∈ indices, index < readSchema.fields.length)
    {start len : Nat} (hinside : start + len ≤ rowsOf batches) :
    ∃ page, (built.reader readSchema).readRows K projection start len = .ok page ∧ page.Whole M ∧ page.numRows = len ∧
      page.across M = ((seen M schema readSchema batches projection).drop start).take len := by
  have hindices : ∀ index ∈ (built.reader readSchema).indices projection,
      index < (built.reader readSchema).schema.fields.length := by
    intro index hindex
    cases projection with
    | none => exact List.mem_range.mp hindex
    | some indices => exact hprojection indices rfl index hindex
  obtain ⟨fields, hfields, -⟩ := projectedFields_ok hindices
  have hplaces := projectedFields hfields
  have hlength := (mapM_ok hfields).length_eq
  obtain ⟨columns, hcolumns, hall⟩ := mapM_forall₂
    (f := fun entry : Nat × Field DataType =>
      SegmentReader.columnFrom K (segmentBytes built.bytes) built.segmentMeta entry.2 entry.1 start len)
    (P := fun entry part => HoldsValues M entry.2 (((columnValues M schema batches entry.1).drop start).take len) part)
    fun entry hentry => columnFrom_widened L hbatches hknown hwidens h hbytes (hplaces entry hentry) hinside
  have hparts : ∀ (entry : Nat × Field DataType) part, HoldsValues M entry.2 (((columnValues M schema batches entry.1).drop start).take len) part →
      part.len = len := by
    intro entry part hholds
    rw [← L.length_values hholds.valid, hholds.values, List.length_take, List.length_drop, length_columnValues L hbatches]
    omega
  have hfit : List.Forall₂ (fun field column => ∃ values, HoldsValues M field values column ∧ values.length = len)
      fields columns := by
    have hzip : (((built.reader readSchema).indices projection).zip fields).map Prod.snd = fields :=
      List.map_snd_zip hlength.ge
    rw [← hzip, List.forall₂_map_left_iff]
    refine hall.imp fun entry part hholds => ⟨_, hholds, ?_⟩
    rw [← hholds.values, L.length_values hholds.valid]
    exact hparts entry part hholds
  refine ⟨⟨⟨fields, []⟩, columns, len⟩, ?_, ?_, rfl, ?_⟩
  · refine bind_eq_ok.mpr ⟨fields, ?_, bind_eq_ok.mpr ⟨built.segmentMeta, segmentMeta_built L h (hbytes.trans (by decide)) _,
      bind_eq_ok.mpr ⟨columns, hcolumns, ?_⟩⟩⟩
    · rw [hfields]
      rfl
    · dsimp only
      rw [tryNew_ok L hfit]
      rfl
  · intro column hcolumn
    obtain ⟨index, hindex⟩ := List.getElem?_of_mem hcolumn
    obtain ⟨entry, -, hholds⟩ := forall₂_getElem? hall hindex
    exact ⟨hholds.valid, hparts entry column hholds⟩
  · have hvalues : columns.map M.values = (((built.reader readSchema).indices projection).map
        (columnValues M schema batches)).map fun values => (values.drop start).take len := by
      have hzip : (((built.reader readSchema).indices projection).zip fields).map Prod.fst =
          (built.reader readSchema).indices projection := List.map_fst_zip hlength.le
      rw [← hzip, List.map_map, List.map_map]
      clear hcolumns hfit hzip
      generalize ((built.reader readSchema).indices projection).zip fields = entries at hall
      induction hall with
      | nil => rfl
      | cons hone _ ih => rw [List.map_cons, List.map_cons, ih, hone.values]; rfl
    rw [RecordBatch.across, hvalues, ← across_seen built L hbatches hwidens.length_le hprojection]
    exact Crossed.rows_part hinside _

theorem writeColumn_blocks {array : ArrayData} {field : Field DataType} {bytes bytes' : Bytes} {chunk : ColumnChunk}
    (h : writeColumn K array field options bytes = .ok (bytes', chunk)) :
    chunk.blocks.isEmpty = false ↔ blocksWanted array (options.compression.codecFor field.dataType) options = true := by
  obtain ⟨bloom, zones, -, -, hstores⟩ := writeColumn_stores h (List.prefix_refl bytes')
  dsimp only at hstores
  by_cases hwanted : blocksWanted array (options.compression.codecFor field.dataType) options = true
  · rw [if_pos hwanted] at hstores
    refine iff_of_true ?_ hwanted
    obtain ⟨hblocks, -⟩ := hstores
    have hlong : 0 < array.len := by
      simp only [blocksWanted, Bool.and_eq_true, decide_eq_true_eq] at hwanted
      omega
    obtain ⟨rest, hrest⟩ := Nat.exists_eq_succ_of_ne_zero hlong.ne'
    have hranges : blockRanges options.compressionBlockRows array.len 0 array.len ≠ [] := by
      rw [hrest, blockRanges, if_pos (Nat.succ_pos rest)]
      exact List.cons_ne_nil _ _
    apply Bool.eq_false_iff.mpr
    intro hempty
    rw [List.isEmpty_iff.mp hempty] at hblocks
    exact hranges (List.forall₂_nil_right_iff.mp hblocks)
  · rw [if_neg hwanted] at hstores
    refine iff_of_false ?_ hwanted
    rw [hstores.1.blocks]
    exact Bool.noConfusion

theorem segmentMeta_numbers (h : buildSegment K segmentId schema fingerprint batches options = .ok built) :
    built.segmentMeta.segmentId = segmentId ∧ built.segmentMeta.pageRows = storedPageRows (rowsOf batches) options.pageRows ∧
      built.segmentMeta.blockRows = if built.segmentMeta.columns.any fun chunk => ¬chunk.blocks.isEmpty
        then options.compressionBlockRows else 0 := by
  unfold buildSegment at h
  split at h
  · cases h
  · obtain ⟨columns, -, h⟩ := bind_eq_ok.mp h
    obtain ⟨⟨bytes, chunks⟩, -, h⟩ := bind_eq_ok.mp h
    obtain ⟨payload, -, h⟩ := bind_eq_ok.mp h
    obtain rfl := Except.ok.inj h
    exact ⟨rfl, rfl, rfl⟩

/-- The rows of a block, where any column is cut into blocks. -/
theorem blockRows_built (L : K.Lawful M) (hbatches : ∀ batch ∈ batches, batch.Sound M schema)
    (hknown : ∀ field ∈ schema.fields, M.Known field.dataType)
    (h : buildSegment K segmentId schema fingerprint batches options = .ok built) :
    built.segmentMeta.blockRows = if options.compressionBlockRows > 0 ∧ rowsOf batches > options.compressionBlockRows ∧
        schema.fields.any fun field => worthBlocking (options.compression.codecFor field.dataType) field.dataType
      then options.compressionBlockRows else 0 := by
  obtain ⟨columns, bytes, -, hcolumns, hwritten, -⟩ := buildSegment_ok h
  have hall := (writeColumns_ok hwritten).2.1
  have hone : ∀ {index : Nat} {field : Field DataType} {chunk : ColumnChunk}, schema.fields[index]? = some field →
      built.segmentMeta.columns[index]? = some chunk → (chunk.blocks.isEmpty = false ↔
        options.compressionBlockRows > 0 ∧ rowsOf batches > options.compressionBlockRows ∧
          worthBlocking (options.compression.codecFor field.dataType) field.dataType = true) := by
    intro index field chunk hfield hchunk
    obtain ⟨column, hcolumn, before, after, hone, -⟩ := forall₂_getElem? hall hchunk
    obtain ⟨hplace, hconcat⟩ := concatColumns_getElem? hcolumns hcolumn
    obtain rfl := Option.some.inj (hfield.symm.trans hplace)
    obtain ⟨hsound, -⟩ := concatColumn_sound L hbatches hfield (hknown _ (List.mem_of_getElem? hfield)) hconcat
    rw [writeColumn_blocks hone, blocksWanted, hsound.len, hsound.dataType]
    simp only [Bool.and_eq_true, decide_eq_true_eq, and_assoc]
  have hlength := length_columns h
  rw [(segmentMeta_numbers h).2.2]
  congr 1
  rw [eq_iff_iff, List.any_eq_true, List.any_eq_true]
  constructor
  · rintro ⟨chunk, hchunk, hsome⟩
    obtain ⟨index, hindex⟩ := List.getElem?_of_mem hchunk
    have hplace : index < schema.fields.length := hlength ▸ (List.getElem?_eq_some_iff.mp hindex).1
    have hfield := List.getElem?_eq_getElem hplace
    obtain ⟨hpos, hlong, hworth⟩ := (hone hfield hindex).mp (by simpa using hsome)
    exact ⟨hpos, hlong, _, List.getElem_mem hplace, hworth⟩
  · rintro ⟨hpos, hlong, field, hfield, hworth⟩
    obtain ⟨index, hindex⟩ := List.getElem?_of_mem hfield
    have hplace : index < built.segmentMeta.columns.length := hlength ▸ (List.getElem?_eq_some_iff.mp hindex).1
    have hchunk := List.getElem?_eq_getElem hplace
    exact ⟨_, List.getElem_mem hplace, by simpa using (hone hindex hchunk).mpr ⟨hpos, hlong, hworth⟩⟩

/-- What a read hands back, as rows: those of the ranges it is asked for that are not deleted, cut at blocks and batches. -/
def pagesOf (deletes : Option (Finset Nat)) (ranges : List (Nat × Nat)) (blockRows scanBatchRows : Nat)
    (shown : LocalTables.RecordBatch DataType ν) : List (LocalTables.RecordBatch DataType ν) :=
  (LocalTables.splitAtBlocks ranges blockRows).flatMap fun range =>
    let page := dropDeleted deletes range.1 (shown.slice range.1 range.2)
    if page.numRows = 0 then [] else LocalTables.sliceBatches page scanBatchRows

theorem across_pages {α : Type} {pieces : List α} {pages : List (List RecordBatch)}
    {shown : α → List (LocalTables.RecordBatch DataType ν)}
    (h : List.Forall₂ (fun piece page => page.map (RecordBatch.across M) = (shown piece).map LocalTables.RecordBatch.rows)
      pieces pages) :
    pages.flatten.map (RecordBatch.across M) = (pieces.flatMap shown).map LocalTables.RecordBatch.rows := by
  induction h with
  | nil => rfl
  | cons hone _ ih => rw [List.flatten_cons, List.flatMap_cons, List.map_append, List.map_append, hone, ih]

/-- A read of a segment hands back what is asked of the rows it holds. -/
theorem readSegmentPages_across (L : K.Lawful M) (hmasks : K.Masks M) (hbatches : ∀ batch ∈ batches, batch.Sound M schema)
    (hknown : ∀ field ∈ schema.fields, M.Known field.dataType) (hwidens : Widens M (rowsOf batches) schema readSchema)
    (h : buildSegment K segmentId schema fingerprint batches options = .ok built) (hbytes : built.bytes.length < 2 ^ 63)
    (hrows : rowsOf batches < 2 ^ 63) {layout : List Nat}
    (haccepts : layoutAccepts layout schema.fields.length fingerprint = true) (offset : Nat)
    {projection : Option (List Nat)}
    (hprojection : ∀ indices ∈ projection, ∀ index ∈ indices, index < readSchema.fields.length)
    (deletes : Option (Finset Nat)) (keep : Option (List Bool)) (scanBatchRows : Nat) (fields : List (Field DataType)) :
    ∃ pages, readSegmentPages K built.bytes offset (built.placed offset).2 readSchema layout deletes projection keep
        scanBatchRows = .ok pages ∧
      pages.map (RecordBatch.across M) =
        (pagesOf deletes (rangesAsked built.segmentMeta keep) built.segmentMeta.blockRows scanBatchRows
          ⟨fields, seen M schema readSchema batches projection⟩).map LocalTables.RecordBatch.rows := by
  have hshort : built.bytes.length < usizeLimit := hbytes.trans (by decide)
  have hnew := new_built L h hshort readSchema haccepts offset
  have hmeta := segmentMeta_built L h hshort readSchema
  obtain ⟨_, _, _, -, -, -, hcount, -⟩ := buildSegment_ok h
  have hwords : built.segmentMeta.rowCount < usizeLimit := by
    rw [hcount]
    exact hrows.trans (by decide)
  obtain ⟨hranges, hwithin⟩ := rangesFor_eq hmeta hwords keep
  have hlast : ∀ range ∈ rangesAsked built.segmentMeta keep, range.2 ≠ 0 →
      ((range.1 + range.2 - 1) / built.segmentMeta.blockRows + 1) * built.segmentMeta.blockRows < usizeLimit := by
    intro range hrange hsome
    have hstop := hwithin range hrange
    have hdiv := Nat.div_mul_le_self (range.1 + range.2 - 1) built.segmentMeta.blockRows
    have hless : built.segmentMeta.blockRows ≤ rowsOf batches := by
      rw [blockRows_built L hbatches hknown h]
      split
      · next hwanted => exact hwanted.2.1.le
      · exact Nat.zero_le _
    rw [Nat.succ_mul]
    rw [hcount] at hstop
    unfold usizeLimit
    omega
  obtain ⟨hsplit, hinside⟩ := splitAtBlocks_eq hwords hwithin fun _ => hlast
  obtain ⟨pages, hpages, hall⟩ := mapM_forall₂
    (f := fun range : Nat × Nat => do
      let page ← (built.reader readSchema).readRows K projection range.1 range.2
      let page ← applyMask K (keepMask deletes built.segmentMeta.rowCount) range.1 range.2 page
      return if page.numRows = 0 then [] else sliceBatches K page scanBatchRows)
    (P := fun range page => page.map (RecordBatch.across M) =
      (let page := dropDeleted deletes range.1
          ((⟨fields, seen M schema readSchema batches projection⟩ : LocalTables.RecordBatch DataType ν).slice range.1 range.2)
        if page.numRows = 0 then [] else LocalTables.sliceBatches page scanBatchRows).map LocalTables.RecordBatch.rows)
    fun range (hrange : range ∈ LocalTables.splitAtBlocks (rangesAsked built.segmentMeta keep) built.segmentMeta.blockRows) => by
      have hin := hinside range hrange
      obtain ⟨page, hread, hwhole, hlen, hacross⟩ := readRows_across L hbatches hknown hwidens h hbytes hprojection
        (hin.trans hcount.le)
      obtain ⟨kept, hkept, hkeptWhole, hrowsKept⟩ := across_applyMask L hmasks hwhole hlen hin deletes fields
      refine ⟨_, bind_eq_ok.mpr ⟨page, hread, bind_eq_ok.mpr ⟨kept, hkept, rfl⟩⟩, ?_⟩
      rw [hacross] at hrowsKept
      let shown := dropDeleted deletes range.1
        ((⟨fields, seen M schema readSchema batches projection⟩ : LocalTables.RecordBatch DataType ν).slice range.1 range.2)
      have hkeptRows : kept.across M = shown.rows := hrowsKept
      have hcut := across_sliceBatches L hkeptWhole scanBatchRows shown.fields
      rw [hkeptRows] at hcut
      have hnum : kept.numRows = shown.numRows := by
        rw [← length_across (M := M), hkeptRows, LocalTables.RecordBatch.numRows]
      change (if kept.numRows = 0 then [] else sliceBatches K kept scanBatchRows).map (RecordBatch.across M) =
        (if shown.numRows = 0 then [] else LocalTables.sliceBatches shown scanBatchRows).map LocalTables.RecordBatch.rows
      rw [hnum]
      by_cases hnone : shown.numRows = 0
      · rw [if_pos hnone, if_pos hnone]
        rfl
      · rw [if_neg hnone, if_neg hnone]
        exact hcut
  have hrowCount : (built.reader readSchema).rowCount K = .ok built.segmentMeta.rowCount := by
    unfold SegmentReader.rowCount
    rw [hmeta]
    rfl
  have hblockRows : (built.reader readSchema).blockRows K = .ok built.segmentMeta.blockRows := by
    unfold SegmentReader.blockRows
    rw [hmeta]
    rfl
  refine ⟨pages.flatten, ?_, across_pages hall⟩
  exact bind_eq_ok.mpr ⟨_, hnew, bind_eq_ok.mpr ⟨_, hrowCount, bind_eq_ok.mpr ⟨_, hranges, bind_eq_ok.mpr ⟨_, hblockRows,
    bind_eq_ok.mpr ⟨_, hsplit, bind_eq_ok.mpr ⟨pages, hpages, rfl⟩⟩⟩⟩⟩⟩

end Columns

end Segment

end LocalTables
