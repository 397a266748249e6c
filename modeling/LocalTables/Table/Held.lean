import LocalTables.Lib.Bag
import LocalTables.Table.Columns

/-! The rows a table holds, each at its address: a position in a segment, or a sequence number of the memtable. What the
calls that are logged do to them, as updates of a bag of addressed rows. -/

namespace LocalTables

variable {τ ν : Type} {M : Media τ ν}

section Segment

variable (env : Env τ ν)

/-- The rows a segment shows under a schema, at their positions. -/
def SegmentEntry.heldIn (file : M.File) (schema : TableSchema τ) (deleted : Finset Nat) (entry : SegmentEntry) :
    List (RowId × Row ν) :=
  match segmentReader file entry schema.layout with
  | .ok data => (data.live deleted).map fun row =>
      (.segment entry.segmentId row.2, padRow env schema.schema.fields data row.1)
  | .error _ => []

variable {env} {file file' : M.File} {schema : TableSchema τ} {entry : SegmentEntry} {data : SegmentData ν}

theorem SegmentEntry.heldIn_eq (h : segmentReader file entry schema.layout = .ok data) (deleted : Finset Nat) :
    entry.heldIn env file schema deleted = (data.live deleted).map fun row =>
      (.segment entry.segmentId row.2, padRow env schema.schema.fields data row.1) := by
  rw [heldIn, h]

theorem SegmentEntry.map_heldIn (deleted : Finset Nat) :
    (entry.heldIn env file schema deleted).map Prod.snd = entry.rowsIn env file schema deleted := by
  unfold heldIn rowsIn
  cases segmentReader file entry schema.layout with
  | error e => rfl
  | ok data =>
      change (List.map _ _).map _ = _
      rw [List.map_map]
      rfl

theorem SegmentEntry.heldIn_congr {entry' : SegmentEntry} (hid : entry'.segmentId = entry.segmentId)
    (hdata : entry'.data = entry.data) (hmeta : entry'.metaAt = entry.metaAt)
    (hread : M.read file' entry.data (.segment entry.metaAt) = M.read file entry.data (.segment entry.metaAt))
    (deleted : Finset Nat) : entry'.heldIn env file' schema deleted = entry.heldIn env file schema deleted := by
  rw [heldIn, heldIn, segmentReader, segmentReader, hid, hdata, hmeta, hread]

/-- What is held of a segment is at positions it has that are not deleted. -/
theorem SegmentEntry.mem_heldIn {held : RowId × Row ν} {deleted : Finset Nat}
    (h : held ∈ entry.heldIn env file schema deleted) : ∃ data position,
      segmentReader file entry schema.layout = .ok data ∧ position < data.rows.length ∧ position ∉ deleted ∧
        held.1 = .segment entry.segmentId position := by
  unfold heldIn at h
  split at h
  · next data hdata =>
      obtain ⟨⟨row, position⟩, hrow, rfl⟩ := List.mem_map.mp h
      obtain ⟨hmem, hkept⟩ := List.mem_filter.mp hrow
      exact ⟨data, position, hdata, List.snd_lt_of_mem_zipIdx hmem, by simpa using hkept, rfl⟩
  · cases h

/-- Deleting more of a segment takes away the rows at the positions deleted. -/
theorem SegmentEntry.heldIn_filter (hrows : ∀ data, segmentReader file entry schema.layout = .ok data →
    data.rows.length = entry.rowCount) {gone : RowId → Prop} [DecidablePred gone] {deleted deleted' : Finset Nat}
    (hdeleted : ∀ position < entry.rowCount,
      position ∈ deleted' ↔ position ∈ deleted ∨ gone (.segment entry.segmentId position)) :
    entry.heldIn env file schema deleted' = (entry.heldIn env file schema deleted).filter fun held => ¬gone held.1 := by
  unfold heldIn
  split
  · next data hdata =>
      rw [SegmentData.live, SegmentData.live, List.filter_map, List.filter_filter]
      congr 1
      apply List.filter_congr
      rintro ⟨row, position⟩ hmem
      have hlt : position < entry.rowCount := by
        rw [← hrows data hdata]
        exact List.snd_lt_of_mem_zipIdx hmem
      by_cases hold : position ∈ deleted
      · simp [hdeleted position hlt, hold]
      · simp [hdeleted position hlt, hold]
  · rfl

end Segment

/-- Rows of the memtable under the numbers they were given. -/
def numbered (seqno : Nat) (rows : List (Row ν)) : Bag.Store RowId (Row ν) :=
  ↑((numberedFrom seqno rows).map fun entry => (RowId.memtable entry.1, entry.2))

theorem numbered_append (seqno : Nat) (front back : List (Row ν)) :
    numbered seqno (front ++ back) = numbered seqno front + numbered (seqno + front.length) back := by
  rw [numbered, numberedFrom_append, List.map_append, ← Multiset.coe_add]
  rfl

/-- The live rows of a memtable, at their numbers. -/
def Memtable.held (m : Memtable τ ν) : List (RowId × Row ν) := m.live.map fun entry => (.memtable entry.1, entry.2)

/-- The addresses in these segments. -/
def RowId.In (segmentIds : List SegmentId) : RowId → Prop
  | segment id _ => id ∈ segmentIds
  | memtable _ => False

/-- The updates an insert makes, numbering rows from `seqno` on: one for each batch with rows. -/
def insertUpdates (seqno : Nat) (batches : List (RecordBatch τ ν)) : List (Bag.Update RowId (Row ν)) :=
  ((Table.planInserts 0 seqno batches).2.map fun entry => numbered entry.1 entry.2.rows).map Bag.put

/-- The update a deletion makes. -/
def deleteUpdate (segmentDeletions : List (SegmentId × List Nat)) (memtableSeqnos : List Nat) :
    Bag.Update RowId (Row ν) :=
  ⟨RowId.Named segmentDeletions memtableSeqnos, 0⟩

/-- The update that replaces rows, numbering the new ones from `seqno` on. -/
def replaceUpdate (segmentDeletions : List (SegmentId × List Nat)) (memtableSeqnos : List Nat) (seqno : Nat)
    (replacements : List (RecordBatch τ ν)) : Bag.Update RowId (Row ν) :=
  ⟨RowId.Named segmentDeletions memtableSeqnos, numbered seqno (rowsOf replacements)⟩

/-- The update that drops segments. -/
def dropUpdate (segmentIds : List SegmentId) : Bag.Update RowId (Row ν) := ⟨RowId.In segmentIds, 0⟩

section Plan

/-- What is planned does not depend on the log. -/
theorem planInserts_snd (lsn lsn' seqno : Nat) (batches : List (RecordBatch τ ν)) :
    (Table.planInserts lsn seqno batches).2 = (Table.planInserts lsn' seqno batches).2 := by
  induction batches generalizing lsn lsn' seqno with
  | nil => rfl
  | cons batch batches ih =>
      rw [planInserts_cons, planInserts_cons]
      split
      · exact ih lsn lsn' seqno
      · exact congrArg (List.cons (seqno, batch)) (ih (lsn + 1) (lsn' + 1) _)

/-- The batches of an insert are its rows, numbered one after the other. -/
theorem sum_insertUpdates (lsn seqno : Nat) (batches : List (RecordBatch τ ν)) :
    ((Table.planInserts lsn seqno batches).2.map fun entry => numbered entry.1 entry.2.rows).sum =
      numbered seqno (rowsOf batches) := by
  induction batches generalizing lsn seqno with
  | nil => rfl
  | cons batch batches ih =>
      rw [planInserts_cons, rowsOf_cons]
      split
      · next hnone =>
          have hrows : batch.rows = [] := List.length_eq_zero_iff.mp hnone
          rw [hrows, List.nil_append]
          exact ih lsn seqno
      · rw [List.map_cons, List.sum_cons, ih, numbered_append]
        rfl

theorem applyAll_insertUpdates (seqno : Nat) (batches : List (RecordBatch τ ν)) (s : Bag.Store RowId (Row ν)) :
    Bag.applyAll (insertUpdates seqno batches) s = s + numbered seqno (rowsOf batches) := by
  rw [insertUpdates, Bag.applyAll_puts, sum_insertUpdates]

/-- Some of the first records of an insert are those of an insert of some of its first batches. -/
theorem planInserts_take (lsn seqno : Nat) (batches : List (RecordBatch τ ν)) (count : Nat) :
    ∃ front, front <+: batches ∧
      (Table.planInserts lsn seqno front).1 = (Table.planInserts lsn seqno batches).1.take count ∧
      (Table.planInserts lsn seqno front).2 = (Table.planInserts lsn seqno batches).2.take count := by
  induction batches generalizing lsn seqno count with
  | nil => exact ⟨[], List.prefix_refl _, by simp [Table.planInserts], by simp [Table.planInserts]⟩
  | cons batch batches ih =>
      cases count with
      | zero => exact ⟨[], List.nil_prefix, rfl, rfl⟩
      | succ count =>
          by_cases hnone : batch.numRows = 0
          · obtain ⟨front, hfront, hrecords, hplanned⟩ := ih lsn seqno (count + 1)
            refine ⟨batch :: front, List.cons_prefix_cons.mpr ⟨rfl, hfront⟩, ?_, ?_⟩
            · rw [planInserts_cons, planInserts_cons, if_pos hnone, if_pos hnone, hrecords]
            · rw [planInserts_cons, planInserts_cons, if_pos hnone, if_pos hnone, hplanned]
          · obtain ⟨front, hfront, hrecords, hplanned⟩ := ih (lsn + 1) (seqno + batch.numRows) count
            refine ⟨batch :: front, List.cons_prefix_cons.mpr ⟨rfl, hfront⟩, ?_, ?_⟩
            · rw [planInserts_cons, planInserts_cons, if_neg hnone, if_neg hnone, hrecords]
              rfl
            · rw [planInserts_cons, planInserts_cons, if_neg hnone, if_neg hnone, hplanned]
              rfl

end Plan

namespace Table

variable {env : Env τ ν} {t t' : Table M}

/-- The rows a segment of the table shows, at their positions. -/
def heldIn (env : Env τ ν) (t : Table M) (entry : SegmentEntry) : List (RowId × Row ν) :=
  entry.heldIn env t.writer.file.io.file t.schema ((t.writer.deletes entry.segmentId).getD ∅)

/-- The rows the table holds, at their addresses. -/
def held (env : Env τ ν) (t : Table M) : Bag.Store RowId (Row ν) :=
  ↑(t.writer.file.committed.manifest.segments.flatMap (t.heldIn env)) + ↑t.writer.memtable.held

theorem map_held (env : Env τ ν) (t : Table M) : (t.held env).map Prod.snd = t.rows env := by
  rw [held, rows, Multiset.map_add, Multiset.map_coe, Multiset.map_coe, List.map_flatMap, Memtable.held, List.map_map]
  congr 2
  apply List.flatMap_congr
  intro entry _
  exact SegmentEntry.map_heldIn _

/-- The same segments, read the same, with the same rows deleted and the same memtable hold the same rows. -/
theorem held_congr (hsegments : t'.writer.file.committed.manifest.segments = t.writer.file.committed.manifest.segments)
    (hreads : ∀ entry ∈ t.writer.file.committed.manifest.segments,
      M.read t'.writer.file.io.file entry.data (.segment entry.metaAt) =
        M.read t.writer.file.io.file entry.data (.segment entry.metaAt))
    (hdeletes : ∀ entry ∈ t.writer.file.committed.manifest.segments,
      (t'.writer.deletes entry.segmentId).getD ∅ = (t.writer.deletes entry.segmentId).getD ∅)
    (hmemtable : t'.writer.memtable.live = t.writer.memtable.live) (hschema : t'.schema = t.schema) :
    t'.held env = t.held env := by
  have hshown : ∀ entry ∈ t.writer.file.committed.manifest.segments, t'.heldIn env entry = t.heldIn env entry := by
    intro entry hentry
    rw [heldIn, heldIn, hdeletes entry hentry, hschema]
    exact SegmentEntry.heldIn_congr rfl rfl rfl (hreads entry hentry) _
  rw [held, held, hsegments, List.flatMap_congr hshown, Memtable.held, hmemtable]
  rfl

/-- The rows of the segments listed can be counted. -/
def Readable (t : Table M) : Prop := ∀ entry ∈ t.writer.file.committed.manifest.segments, ∀ data : SegmentData ν,
  segmentReader t.writer.file.io.file entry t.schema.layout = .ok data → data.rows.length = entry.rowCount

theorem All.readable (h : t.All fun _ => True) : t.Readable := by
  intro entry hentry data hdata
  obtain ⟨stored, hstores, -⟩ := h entry hentry
  have hsame := Except.ok.inj ((segmentReader_ok hdata).1.symm.trans hstores.read)
  rw [Blob.segment.inj hsame]
  exact hstores.rows

/-- Rows deleted from segments and from the memtable are gone from what is held. -/
theorem held_gone (hreadable : t.Readable) {gone : RowId → Prop} {removed : List Nat}
    (hfile : t'.writer.file = t.writer.file)
    (hdeletes : ∀ entry ∈ t.writer.file.committed.manifest.segments, ∀ position < entry.rowCount,
      position ∈ (t'.writer.deletes entry.segmentId).getD ∅ ↔
        position ∈ (t.writer.deletes entry.segmentId).getD ∅ ∨ gone (.segment entry.segmentId position))
    (hmemtable : t'.writer.memtable.live = t.writer.memtable.live.filter fun entry => entry.1 ∉ removed)
    (hremoved : ∀ entry ∈ t.writer.memtable.live, entry.1 ∈ removed ↔ gone (.memtable entry.1))
    (hschema : t'.schema = t.schema) :
    t'.held env = (⟨gone, 0⟩ : Bag.Update RowId (Row ν)).apply (t.held env) := by
  classical
  have hsegments : ∀ entry ∈ t.writer.file.committed.manifest.segments,
      t'.heldIn env entry = (t.heldIn env entry).filter fun held => ¬gone held.1 := by
    intro entry hentry
    rw [heldIn, heldIn, hfile, hschema]
    exact SegmentEntry.heldIn_filter (hreadable entry hentry) (hdeletes entry hentry)
  have hlive : t'.writer.memtable.held = t.writer.memtable.held.filter fun held => ¬gone held.1 := by
    rw [Memtable.held, Memtable.held, hmemtable, List.filter_map]
    congr 1
    apply List.filter_congr
    intro entry hentry
    simp only [Function.comp, hremoved entry hentry]
  rw [Bag.Update.apply, add_zero, held, held, Multiset.filter_add, Multiset.filter_coe, Multiset.filter_coe, hfile,
    List.filter_flatMap, List.flatMap_congr hsegments, hlive]

/-- Rows that come into the memtable are held from then on. -/
theorem held_added {seqno : Nat} {rows : List (Row ν)} (hfile : t'.writer.file = t.writer.file)
    (hdeletes : t'.writer.deletes = t.writer.deletes)
    (hmemtable : t'.writer.memtable.live = t.writer.memtable.live ++ numberedFrom seqno rows)
    (hschema : t'.schema = t.schema) : t'.held env = t.held env + numbered seqno rows := by
  have hsame : t'.heldIn env = t.heldIn env := by
    funext entry
    rw [heldIn, heldIn, hfile, hdeletes, hschema]
  rw [held, held, hfile, hsame, Memtable.held, hmemtable, List.map_append, ← Multiset.coe_add, ← add_assoc]
  rfl

theorem held_appendRows (htidy : t.Tidy) {batches : List (RecordBatch τ ν)} (hok : t.appendRows env batches = .ok t') :
    t'.held env = Bag.applyAll (insertUpdates t.writer.memtable.nextSeqno batches) (t.held env) := by
  obtain ⟨frames, wal, -, -, rfl⟩ := appendRows_ok hok
  rw [applyAll_insertUpdates]
  exact held_added rfl rfl (planInserts_memtable env htidy.memtable t.writer.nextLsn batches).2.1 rfl

theorem held_marked (hreadable : t.Readable) {segmentDeletions : List (SegmentId × List Nat)} {memtableSeqnos : List Nat}
    {planned : PlannedDeletes} (hnodup : (segmentDeletions.map Prod.fst).Nodup) (htidy : t.Tidy)
    (hplanned : planDeletes t.writer segmentDeletions memtableSeqnos = .ok planned)
    (hfile : t'.writer.file = t.writer.file) (hdeletes : t'.writer.deletes = markDeletes t.writer.deletes planned.segments)
    (hmemtable : t'.writer.memtable.live = t.writer.memtable.live.filter fun entry => entry.1 ∉ planned.memtable)
    (hschema : t'.schema = t.schema) :
    t'.held env = (deleteUpdate segmentDeletions memtableSeqnos).apply (t.held env) := by
  apply held_gone hreadable hfile _ hmemtable _ hschema
  · intro entry hentry position hlt
    rw [hdeletes]
    exact mem_markDeletes hnodup hplanned (htidy.numbered.segment_of_mem hentry) hlt
  · intro entry hentry
    have hdeleted : ¬t.writer.memtable.isDeleted entry.1 = true := by
      simpa [Memtable.isDeleted] using (List.mem_filter.mp hentry).2
    rw [(planDeletes_ok hplanned).2.2]
    simp [RowId.Named, hdeleted]

theorem applyAll_deleteUpdate_nil (s : Bag.Store RowId (Row ν)) : (deleteUpdate [] []).apply s = s := by
  classical
  have hnone : ∀ held ∈ s, ¬RowId.Named [] [] held.1 := by
    rintro ⟨id, row⟩ -
    cases id with
    | segment id position => simp [RowId.Named]
    | memtable seqno => simp [RowId.Named]
  rw [deleteUpdate, Bag.Update.apply, add_zero]
  exact Multiset.filter_eq_self.mpr hnone

theorem markDeletes_none {w : Writer M} {planned : PlannedDeletes} (h : planned.isEmpty) :
    markDeletes w.deletes planned.segments = w.deletes ∧ planned.memtable = [] := by
  simp only [PlannedDeletes.isEmpty, Bool.and_eq_true, List.isEmpty_iff] at h
  rw [h.1]
  exact ⟨rfl, h.2⟩

theorem held_delete (hreadable : t.Readable) (htidy : t.Tidy) {segmentDeletions : List (SegmentId × List Nat)}
    {memtableSeqnos : List Nat} {deleted : Nat} (hnodup : (segmentDeletions.map Prod.fst).Nodup)
    (hok : t.delete env segmentDeletions memtableSeqnos = .ok (deleted, t')) :
    t'.held env = (deleteUpdate segmentDeletions memtableSeqnos).apply (t.held env) := by
  rcases delete_ok hok with ⟨rfl, ⟨rfl, rfl⟩ | ⟨planned, hplanned, hempty⟩⟩ | ⟨planned, frame, wal, hplanned, -, -, rfl⟩
  · exact (applyAll_deleteUpdate_nil _).symm
  · obtain ⟨hmarks, hnone⟩ := markDeletes_none (w := t'.writer) hempty
    refine held_marked hreadable hnodup htidy hplanned rfl hmarks.symm ?_ rfl
    rw [hnone]
    simp
  · rw [applyDeletes_snd]
    exact held_marked hreadable hnodup htidy hplanned rfl rfl (Memtable.live_delete _ _) rfl

theorem live_replaced {m : Memtable τ ν} (h : m.Wf) (removed : List Nat) (merged : Option (RecordBatch τ ν)) :
    (match merged with
      | some batch => (m.delete removed).2.insertAt env m.nextSeqno batch
      | none => (m.delete removed).2).live =
        (m.delete removed).2.live ++ numberedFrom m.nextSeqno (rowsOf merged.toList) := by
  cases merged with
  | none => simp [numberedFrom]
  | some batch =>
      have hnext : (m.delete removed).2.nextSeqno ≤ m.nextSeqno := by rw [Memtable.delete_snd]
      rw [Memtable.live_insertAt (h.delete removed) env hnext]
      simp [Memtable.chunkEntries, numberedFrom]

section Replace

variable [DecidableEq τ]

/-- The batch an update logs has the rows of its replacements and the fields of the schema. -/
theorem mergeReplacements_ok {replacements : List (RecordBatch τ ν)} {merged : Option (RecordBatch τ ν)}
    (hfields : ∀ batch ∈ replacements, batch.fields = t.schema.schema.fields)
    (hwidth : ∀ batch ∈ replacements, ∀ row ∈ batch.rows, row.length = batch.fields.length)
    (h : t.mergeReplacements replacements = .ok merged) :
    rowsOf merged.toList = rowsOf replacements ∧ ∀ batch ∈ merged, batch.fields = t.schema.schema.fields := by
  unfold mergeReplacements at h
  split at h
  · obtain rfl := Except.ok.inj h
    exact ⟨rfl, by simp⟩
  · next batch =>
      obtain rfl := Except.ok.inj h
      refine ⟨rfl, ?_⟩
      rintro _ ⟨⟩
      exact hfields batch List.mem_cons_self
  · obtain ⟨batch, hconcat, h⟩ := bind_eq_ok.mp h
    obtain rfl := Except.ok.inj h
    unfold concatBatches at hconcat
    dsimp only at hconcat
    split at hconcat
    · obtain rfl := Except.ok.inj hconcat
      refine ⟨?_, by rintro _ ⟨⟩; rfl⟩
      have hwhole : ∀ row ∈ rowsOf replacements, row.take t.schema.schema.fields.length = row := by
        intro row hrow
        obtain ⟨batch, hbatch, hmem⟩ := List.mem_flatMap.mp hrow
        apply List.take_of_length_le
        rw [hwidth batch hbatch row hmem, hfields batch hbatch]
      calc rowsOf (some (⟨t.schema.schema.fields, (rowsOf replacements).map _⟩ : RecordBatch τ ν)).toList
          = (rowsOf replacements).map fun row => row.take t.schema.schema.fields.length := by simp [rowsOf]
        _ = (rowsOf replacements).map id := List.map_congr_left hwhole
        _ = rowsOf replacements := List.map_id _
    · cases hconcat

theorem held_updateLocked (hreadable : t.Readable) (htidy : t.Tidy) {segmentDeletions : List (SegmentId × List Nat)}
    {memtableSeqnos : List Nat} {replacements : List (RecordBatch τ ν)} {rows : Nat}
    (hnodup : (segmentDeletions.map Prod.fst).Nodup)
    (hwidth : ∀ batch ∈ replacements, ∀ row ∈ batch.rows, row.length = batch.fields.length)
    (hok : t.updateLocked env segmentDeletions memtableSeqnos replacements = .ok (rows, t')) :
    t'.held env = (replaceUpdate segmentDeletions memtableSeqnos t.writer.memtable.nextSeqno replacements).apply
      (t.held env) := by
  have hsplit : ∀ s : Bag.Store RowId (Row ν),
      (replaceUpdate segmentDeletions memtableSeqnos t.writer.memtable.nextSeqno replacements).apply s =
        (deleteUpdate segmentDeletions memtableSeqnos).apply s +
          numbered t.writer.memtable.nextSeqno (rowsOf replacements) := by
    intro s
    unfold Bag.Update.apply replaceUpdate deleteUpdate
    rw [add_zero]
  have hnothing : totalRows replacements = 0 → numbered t.writer.memtable.nextSeqno (rowsOf replacements) = 0 := by
    intro hzero
    rw [List.length_eq_zero_iff.mp ((length_rowsOf replacements).trans hzero)]
    rfl
  rw [hsplit]
  rcases updateLocked_ok hok with ⟨rfl, hzero, rfl, rfl⟩ | ⟨hfields, hreplace⟩
  · rw [applyAll_deleteUpdate_nil, hnothing hzero, add_zero]
  · obtain ⟨planned, hplanned, ⟨rfl, hzero, hempty⟩ | ⟨merged, frame, wal, hmerged, -, -, rfl⟩⟩ := replaceRows_ok hreplace
    · obtain ⟨hmarks, hnone⟩ := markDeletes_none (w := t'.writer) hempty
      rw [hnothing hzero, add_zero]
      refine held_marked hreadable hnodup htidy hplanned rfl hmarks.symm ?_ rfl
      rw [hnone]
      simp
    · obtain ⟨hrows, -⟩ := mergeReplacements_ok hfields hwidth hmerged
      have hdeleted : ({ t with writer := { t.writer with
          deletes := markDeletes t.writer.deletes planned.segments
          memtable := (t.writer.memtable.delete planned.memtable).2 } } : Table M).held env =
            (deleteUpdate segmentDeletions memtableSeqnos).apply (t.held env) :=
        held_marked hreadable hnodup htidy hplanned rfl rfl (Memtable.live_delete _ _) rfl
      rw [applyDeletes_snd, ← hdeleted, ← hrows]
      exact held_added rfl rfl (live_replaced htidy.memtable planned.memtable merged) rfl

end Replace

/-- The segments a call drops take their rows with them, and nothing else goes. -/
theorem held_deleteSegments (h : t.Whole env) {segmentIds : List SegmentId} {deleted : Nat} (hsafe : t.DropsSafely segmentIds)
    (hok : t.deleteSegments segmentIds = .ok (deleted, t')) :
    t'.held env = (dropUpdate segmentIds).apply (t.held env) := by
  classical
  have hbuffered : (t.writer.memtable.held : Bag.Store RowId (Row ν)).filter (fun held => ¬held.1.In segmentIds) =
      t.writer.memtable.held := by
    apply Multiset.filter_eq_self.mpr
    intro held hheld
    obtain ⟨entry, -, rfl⟩ := List.mem_map.mp hheld
    exact id
  have hkept : ∀ entry, (t.heldIn env entry).filter (fun held => ¬held.1.In segmentIds) =
      if entry.segmentId ∈ segmentIds then [] else t.heldIn env entry := by
    intro entry
    split
    · next hnamed =>
        apply List.filter_eq_nil_iff.mpr
        intro held hheld
        obtain ⟨-, position, -, -, -, hid⟩ := SegmentEntry.mem_heldIn hheld
        simpa [hid, RowId.In] using hnamed
    · next hnamed =>
        apply List.filter_eq_self.mpr
        intro held hheld
        obtain ⟨-, position, -, -, -, hid⟩ := SegmentEntry.mem_heldIn hheld
        simpa [hid, RowId.In] using hnamed
  have hafter : (dropUpdate segmentIds).apply (t.held env) =
      ↑(t.writer.file.committed.manifest.segments.flatMap fun entry =>
        if entry.segmentId ∈ segmentIds then [] else t.heldIn env entry) + ↑t.writer.memtable.held := by
    rw [dropUpdate, Bag.Update.apply, add_zero, held, Multiset.filter_add, hbuffered, Multiset.filter_coe,
      List.filter_flatMap]
    congr 2
    exact List.flatMap_congr fun entry _ => hkept entry
  rw [hafter]
  have hshifts := h.housed.shifts_of_acts (deleteSegments_acts h.housed.synced hok)
  rcases deleteSegments_ok hok with ⟨hzero, rfl⟩ | ⟨-, f, hcommit, rfl⟩
  · -- the segments named have no rows left, so none go
    have hempty : ∀ entry ∈ t.writer.file.committed.manifest.segments,
        (if entry.segmentId ∈ segmentIds then [] else t.heldIn env entry) = t.heldIn env entry := by
      intro entry hentry
      split
      · next hnamed =>
          have hdead := h.tidy.droppedRows_eq_zero.mp hzero entry (mem_dropped.mpr ⟨hentry, hnamed⟩)
          apply Eq.symm
          apply List.eq_nil_iff_forall_not_mem.mpr
          intro held hheld
          obtain ⟨data, position, hdata, hlt, hkept, -⟩ := SegmentEntry.mem_heldIn hheld
          rw [h.all.readable entry hentry data hdata] at hlt
          have hmem : position ∈ Finset.range entry.rowCount \ (t.writer.deletes entry.segmentId).getD ∅ :=
            Finset.mem_sdiff.mpr ⟨Finset.mem_range.mpr hlt, hkept⟩
          simp [hdead] at hmem
      · rfl
    rw [List.flatMap_congr hempty, Writer.forgetAll_eq]
    exact held_congr rfl (fun _ _ => rfl) (fun entry _ => hsafe.deletes h.tidy hzero entry.segmentId) rfl rfl
  · have hsegments : f.committed.manifest.segments =
        t.writer.file.committed.manifest.segments.filter fun entry => entry.segmentId ∉ segmentIds := by
      rw [(TableFile.commit_stamps hcommit).2.2.2.2.1, Manifest.segments_retire]
      rfl
    have hsame : ∀ entry ∈ f.committed.manifest.segments,
        heldIn env (publish { t with writer :=
          { t.writer.forgetAll ((t.dropped segmentIds).map SegmentEntry.segmentId) with file := f } }) entry =
            t.heldIn env entry := by
      intro entry hentry
      rw [hsegments] at hentry
      obtain ⟨hlisted, hnamed⟩ := List.mem_filter.mp hentry
      have hothers : entry.segmentId ∉ (t.dropped segmentIds).map SegmentEntry.segmentId := by
        intro hmem
        obtain ⟨other, hother, hid⟩ := List.mem_map.mp hmem
        rw [← hid] at hnamed
        simp [(mem_dropped.mp hother).2] at hnamed
      have hreads := h.housed.reads hshifts (.inl rfl) (e := entry.data) (by
        rw [h.housed.synced.manifest]
        exact Manifest.mem_refs.mpr ⟨entry, hlisted, .inl rfl⟩)
      rw [Writer.forgetAll_eq] at hreads ⊢
      rw [heldIn, heldIn]
      dsimp only [publish] at hreads ⊢
      rw [if_neg hothers]
      exact SegmentEntry.heldIn_congr rfl rfl rfl (hreads _) _
    have hfilter : ∀ entries : List SegmentEntry, (entries.filter fun entry => entry.segmentId ∉ segmentIds).flatMap
        (t.heldIn env) = entries.flatMap fun entry =>
          if entry.segmentId ∈ segmentIds then [] else t.heldIn env entry := by
      intro entries
      induction entries with
      | nil => rfl
      | cons entry entries ih =>
          by_cases hnamed : entry.segmentId ∈ segmentIds
          · simp [hnamed, ← ih]
          · simp [hnamed, ← ih]
    have hmemtable : (t.writer.forgetAll ((t.dropped segmentIds).map SegmentEntry.segmentId)).memtable =
        t.writer.memtable := by
      rw [Writer.forgetAll_eq]
    rw [held]
    dsimp only [publish] at hsame ⊢
    rw [List.flatMap_congr hsame, hsegments, hfilter, hmemtable]

end Table

end LocalTables
