import LocalTables.Table.Isolation
import LocalTables.Table.Rows

/-! `DELETE` and `UPDATE` through SQL (`dml.rs`). A statement takes a snapshot, reads the segments it lists, asks
the table for the sequence numbers of its memtable, and hands what matched to `delete` or `update`. Each of these
is a step of its own: the memtable rows it matched are the snapshot's, and the numbers it pairs them with, by
position, are those of the table as it is by then. -/

namespace LocalTables

variable {τ ν : Type} {M : Media τ ν}

/-- A `WHERE` clause, row by row: a truth value, null, or an error. -/
abbrev Predicate (ν : Type) := Row ν → Except Error (Option Bool)

/-- One `SET` of an `UPDATE`: a column, and what its expression gives once cast back to the column's type. -/
structure Assignment (ν : Type) where
  index : Nat
  value : Row ν → Except Error ν

/-- A `DELETE`, or an `UPDATE` when there are assignments (`DmlExec`). -/
structure Statement (ν : Type) where
  predicate : Option (Predicate ν)
  assignments : List (Assignment ν)

/-- Evaluate a predicate over a batch, or select every row when there is none. -/
def evaluate (predicate : Option (Predicate ν)) (batch : RecordBatch τ ν) : Except Error (List (Option Bool)) :=
  match predicate with
  | none => .ok (batch.rows.map fun _ => some true)
  | some predicate => batch.rows.mapM predicate

/-- The rows at which a mask is true, and not null. -/
def selected (mask : List (Option Bool)) : List Nat :=
  (List.range mask.length).filter fun row => mask[row]? = some (some true)

/-- A mask that is true at each of `positions`. -/
def rowMask (rows : Nat) (positions : List Nat) : List (Option Bool) :=
  (List.range rows).map fun row => some (decide (row ∈ positions))

/-- The rows at which a mask is true. -/
def RecordBatch.pick (batch : RecordBatch τ ν) (mask : List (Option Bool)) : RecordBatch τ ν :=
  ⟨batch.fields, (selected mask).filterMap fun row => batch.rows[row]?⟩

/-- Replace the assigned columns of a batch with their new values. Each value is worked out from the row as it was. -/
def applyAssignments (env : Env τ ν) (batch : RecordBatch τ ν) (assignments : List (Assignment ν)) :
    Except Error (RecordBatch τ ν) := do
  let rows ← batch.rows.mapM fun row => assignments.foldlM (fun columns assignment => do
    let value ← assignment.value row
    return columns.set assignment.index value) row
  if rows.all fun row => (row.zip batch.fields).all fun (value, field) => field.nullable || !env.isNull value then
    return ⟨batch.fields, rows⟩
  else
    throw (.arrow "a column declared as non-nullable contains null values")

namespace Statement

variable (env : Env τ ν) (st : Statement ν)

/-- What is kept of the rows that matched: their replacements for an `UPDATE`, nothing for a `DELETE`. -/
def collect (batch : RecordBatch τ ν) (positions : List Nat) : Except Error (List (RecordBatch τ ν)) :=
  if st.assignments.isEmpty then .ok []
  else do
    let replacement ← applyAssignments env (batch.pick (rowMask batch.numRows positions)) st.assignments
    return [replacement]

/-- The positions of a segment that match. They are `u32` in the source. -/
def positions (deleted : Finset Nat) (mask : List (Option Bool)) : List Nat :=
  ((selected mask).map fun row => row % 2 ^ 32).filter (· ∉ deleted)

/-- Find the rows of one segment, through the schema the handle has now. -/
def matchSegment (file : M.File) (current : TableSchema τ) (s : Snapshot τ ν) (entry : SegmentEntry) :
    Except Error (List (SegmentId × List Nat) × List (RecordBatch τ ν)) := do
  let data ← segmentReader file entry current.layout
  let batch := readRows env current.schema.fields data 0 data.rows.length
  let mask ← evaluate st.predicate batch
  -- the mask covers the segment as written, deleted rows included
  let positions := positions ((s.deletes entry.segmentId).getD ∅) mask
  if positions.isEmpty then
    return ([], [])
  else
    let replacements ← st.collect env batch positions
    return ([(entry.segmentId, positions)], replacements)

/-- The first half of `find_matches`: the segments. -/
def matchSegments (file : M.File) (current : TableSchema τ) (s : Snapshot τ ν) :
    Except Error (List (SegmentId × List Nat) × List (RecordBatch τ ν)) := do
  let found ← s.liveSegments.mapM (st.matchSegment env file current s)
  return ((found.map Prod.fst).flatten, (found.map Prod.snd).flatten)

/-- Find the rows of one batch of the memtable, the first of which has the number at `offset`. The positions a batch
is collected at are counted to its length as a `u32`. -/
def matchBatch (seqnos : List Nat) (offset : Nat) (batch : RecordBatch τ ν) :
    Except Error (List Nat × List (RecordBatch τ ν)) := do
  let mask ← evaluate st.predicate batch
  let hits := (selected mask).filterMap fun row => seqnos[offset + row]?
  if hits.isEmpty then
    return ([], [])
  else
    let replacements ← st.collect env batch ((selected mask).filter (· < batch.numRows % 2 ^ 32))
    return (hits, replacements)

/-- The second half: the memtable's batches, in the order its sequence numbers list their rows. -/
def matchMemtable (seqnos : List Nat) : Nat → List (RecordBatch τ ν) →
    Except Error (List Nat × List (RecordBatch τ ν))
  | _, [] => .ok ([], [])
  | offset, batch :: batches => do
      let (hits, replacements) ← st.matchBatch env seqnos offset batch
      let (more, rest) ← matchMemtable seqnos (offset + batch.numRows) batches
      return (hits ++ more, replacements ++ rest)

end Statement

/-- How many rows matched. -/
def matchCount (segments : List (SegmentId × List Nat)) (memtable : List Nat) : Nat :=
  (segments.map fun segment => segment.2.length).sum + memtable.length

theorem RowId.not_named_of_matchCount {segments : List (SegmentId × List Nat)} {memtable : List Nat}
    (h : matchCount segments memtable = 0) {id : RowId} : ¬id.Named segments memtable := by
  have hsum := Nat.eq_zero_of_add_eq_zero h
  cases id with
  | segment id position =>
      rintro ⟨positions, hmem, hposition⟩
      have hzero : positions.length = 0 := List.sum_eq_zero_iff.mp hsum.1 _ (List.mem_map_of_mem hmem)
      rw [List.length_eq_zero_iff.mp hzero] at hposition
      cases hposition
  | memtable seqno =>
      rw [List.length_eq_zero_iff.mp hsum.2]
      exact List.not_mem_nil

/-- How far a statement has got. `taken` is the table its snapshot is of; the statement itself keeps the snapshot
alone. -/
inductive Statement.Stage (M : Media τ ν) where
  | took (taken : Table M)
  | read (taken : Table M) (segments : List (SegmentId × List Nat)) (replacements : List (RecordBatch τ ν))
  | numbered (taken : Table M) (segments : List (SegmentId × List Nat)) (memtable : List Nat)
      (replacements : List (RecordBatch τ ν))
  | done

/-- One step of a statement under way, after which it returns when it is done. -/
inductive Statement.Step [DecidableEq τ] (env : Env τ ν) (st : Statement ν) :
    Table M → Stage M → Table M → Stage M → Prop where
  | read {t taken : Table M} {segments : List (SegmentId × List Nat)} {replacements : List (RecordBatch τ ν)}
      (h : st.matchSegments env t.writer.file.io.file t.schema taken.current = .ok (segments, replacements)) :
      Step env st t (.took taken) t (.read taken segments replacements)
  | number {t taken : Table M} {segments : List (SegmentId × List Nat)} {memtable : List Nat}
      {replacements more : List (RecordBatch τ ν)}
      (h : st.matchMemtable env t.writer.memtable.liveSeqnos 0 taken.current.memtable = .ok (memtable, more)) :
      Step env st t (.read taken segments replacements) t (.numbered taken segments memtable (replacements ++ more))
  | nothing {t taken : Table M} {segments : List (SegmentId × List Nat)} {memtable : List Nat}
      {replacements : List (RecordBatch τ ν)} (hnone : matchCount segments memtable = 0) :
      Step env st t (.numbered taken segments memtable replacements) t .done
  | delete {t t' taken : Table M} {segments : List (SegmentId × List Nat)} {memtable : List Nat}
      {replacements : List (RecordBatch τ ν)} {deleted : Nat} (hkind : st.assignments = [])
      (hsome : matchCount segments memtable ≠ 0) (h : t.delete env segments memtable = .ok (deleted, t')) :
      Step env st t (.numbered taken segments memtable replacements) t' .done
  | update {t t' taken : Table M} {segments : List (SegmentId × List Nat)} {memtable : List Nat}
      {replacements : List (RecordBatch τ ν)} {updated : Nat} (hkind : st.assignments ≠ [])
      (hsome : matchCount segments memtable ≠ 0)
      (h : t.updateLocked env segments memtable replacements = .ok (updated, t')) :
      Step env st t (.numbered taken segments memtable replacements) t' .done

/-- What another caller may do meanwhile. -/
inductive Table.Other [DecidableEq τ] (env : Env τ ν) : Table M → Table M → Prop where
  | insert {t t' : Table M} (batches : List (RecordBatch τ ν)) {rows : Nat}
      (h : t.insertLocked env batches = .ok (rows, t')) : Other env t t'
  | delete {t t' : Table M} (segmentDeletions : List (SegmentId × List Nat)) (memtableSeqnos : List Nat)
      {deleted : Nat} (h : t.delete env segmentDeletions memtableSeqnos = .ok (deleted, t')) : Other env t t'
  | update {t t' : Table M} (segmentDeletions : List (SegmentId × List Nat)) (memtableSeqnos : List Nat)
      (replacements : List (RecordBatch τ ν)) {rows : Nat}
      (h : t.updateLocked env segmentDeletions memtableSeqnos replacements = .ok (rows, t')) : Other env t t'

section Matches

variable {env : Env τ ν} {st : Statement ν}

/-- A statement wants a row. -/
def Statement.Selects (st : Statement ν) (row : Row ν) : Prop :=
  match st.predicate with
  | none => True
  | some predicate => predicate row = .ok (some true)

theorem mem_selected {batch : RecordBatch τ ν} {mask : List (Option Bool)}
    (h : evaluate st.predicate batch = .ok mask) {position : Nat} :
    position ∈ selected mask ↔ ∃ row, batch.rows[position]? = some row ∧ st.Selects row := by
  have hmask : position ∈ selected mask ↔ mask[position]? = some (some true) := by
    rw [selected, List.mem_filter, List.mem_range, decide_eq_true_iff]
    exact ⟨fun hmem => hmem.2, fun hmem => ⟨(List.getElem?_eq_some_iff.mp hmem).1, hmem⟩⟩
  rw [hmask]
  unfold evaluate at h
  unfold Statement.Selects
  split at h
  · rw [← Except.ok.inj h, List.getElem?_map]
    simp
  · exact mapM_getElem? h

theorem nodup_selected (mask : List (Option Bool)) : (selected mask).Nodup := List.nodup_range.filter _

/-- Everything the search of one segment does. -/
theorem Statement.matchSegment_ok {file : M.File} {current : TableSchema τ} {s : Snapshot τ ν} {entry : SegmentEntry}
    {found : List (SegmentId × List Nat) × List (RecordBatch τ ν)}
    (h : st.matchSegment env file current s entry = .ok found) :
    ∃ data mask, segmentReader file entry current.layout = .ok data ∧
      evaluate st.predicate (readRows env current.schema.fields data 0 data.rows.length) = .ok mask ∧
      (positions ((s.deletes entry.segmentId).getD ∅) mask = [] ∧ found = ([], []) ∨
        positions ((s.deletes entry.segmentId).getD ∅) mask ≠ [] ∧
        found.1 = [(entry.segmentId, positions ((s.deletes entry.segmentId).getD ∅) mask)] ∧
        st.collect env (readRows env current.schema.fields data 0 data.rows.length)
          (positions ((s.deletes entry.segmentId).getD ∅) mask) = .ok found.2) := by
  obtain ⟨data, hdata, h⟩ := bind_eq_ok.mp h
  obtain ⟨mask, hmask, h⟩ := bind_eq_ok.mp h
  refine ⟨data, mask, hdata, hmask, ?_⟩
  dsimp only at h
  split at h
  · next hnone => exact .inl ⟨List.isEmpty_iff.mp hnone, (Except.ok.inj h).symm⟩
  · next hsome =>
      obtain ⟨replacements, hcollect, h⟩ := bind_eq_ok.mp h
      rw [← Except.ok.inj h]
      rw [List.isEmpty_iff] at hsome
      exact .inr ⟨hsome, rfl, hcollect⟩

/-- The rows of a segment, as a snapshot of the table shows them, that a statement wants. -/
def Statement.Wanted (env : Env τ ν) (st : Statement ν) (taken : Table M) (entry : SegmentEntry) (position : Nat) : Prop :=
  ∃ data row, segmentReader taken.writer.file.io.file entry taken.current.layout = .ok data ∧
    (readRows env taken.current.schema.fields data 0 data.rows.length).rows[position]? = some row ∧ st.Selects row

/-- The rows of a snapshot that a statement matches. -/
def Statement.Matched (env : Env τ ν) (st : Statement ν) (taken : Table M) : RowId → Prop
  | .segment id position => ∃ entry ∈ taken.current.liveSegments, entry.segmentId = id ∧
      st.Wanted env taken entry position ∧ position ∉ (taken.current.deletes id).getD ∅
  | .memtable seqno => ∃ row, (seqno, row) ∈ taken.writer.memtable.live ∧ st.Selects row

/-- No row it wants is past what a `u32` counts. -/
def Statement.Narrow (env : Env τ ν) (st : Statement ν) (taken : Table M) : Prop :=
  ∀ entry ∈ taken.current.liveSegments, ∀ position, st.Wanted env taken entry position → position < 2 ^ 32

/-- The segments of the snapshot read as they did when it was taken. -/
structure Statement.Holds (taken t : Table M) : Prop where
  schema : t.schema = taken.schema
  reads : ∀ e ∈ taken.current.manifest.refs, ∀ k, M.read t.writer.file.io.file e k = M.read taken.writer.file.io.file e k

theorem Statement.Holds.segmentReader {taken t : Table M} (h : Holds taken t) (htidy : taken.Tidy) {entry : SegmentEntry}
    (hentry : entry ∈ taken.current.liveSegments) :
    segmentReader t.writer.file.io.file entry t.schema.layout =
      segmentReader taken.writer.file.io.file entry taken.current.layout := by
  have hmem : entry.data ∈ taken.current.manifest.refs :=
    Manifest.mem_refs.mpr ⟨entry, List.mem_of_mem_filter hentry, .inl rfl⟩
  rw [LocalTables.segmentReader, LocalTables.segmentReader, h.reads _ hmem, h.schema, htidy.shownLayout]

/-- What the search of the segments finds is what the snapshot has. -/
theorem Statement.matchSegments_named {taken t : Table M} (h : Holds taken t) (htidy : taken.Tidy)
    (hnarrow : st.Narrow env taken) {segments : List (SegmentId × List Nat)} {replacements : List (RecordBatch τ ν)}
    (hok : st.matchSegments env t.writer.file.io.file t.schema taken.current = .ok (segments, replacements))
    (id : SegmentId) (position : Nat) : (∃ positions, (id, positions) ∈ segments ∧ position ∈ positions) ↔
      st.Matched env taken (.segment id position) := by
  obtain ⟨found, hfound, hok⟩ := bind_eq_ok.mp hok
  obtain ⟨rfl, rfl⟩ := Prod.mk.inj (Except.ok.inj hok)
  -- in one segment, by its mask
  have hmask : ∀ {entry : SegmentEntry} {data : SegmentData ν} {mask : List (Option Bool)},
      entry ∈ taken.current.liveSegments →
      LocalTables.segmentReader t.writer.file.io.file entry t.schema.layout = .ok data →
      evaluate st.predicate (readRows env t.schema.schema.fields data 0 data.rows.length) = .ok mask →
      (position ∈ positions ((taken.current.deletes entry.segmentId).getD ∅) mask ↔
        st.Wanted env taken entry position ∧ position ∉ (taken.current.deletes entry.segmentId).getD ∅) := by
    intro entry data mask hentry hdata hevaluate
    rw [h.segmentReader htidy hentry] at hdata
    rw [h.schema, ← htidy.shownSchema] at hevaluate
    have hwanted : ∀ other, other ∈ selected mask ↔ st.Wanted env taken entry other := by
      intro other
      rw [mem_selected hevaluate]
      constructor
      · rintro ⟨row, hrow, hselects⟩
        exact ⟨data, row, hdata, hrow, hselects⟩
      · rintro ⟨data', row, hdata', hrow, hselects⟩
        obtain rfl := Except.ok.inj (hdata.symm.trans hdata')
        exact ⟨row, hrow, hselects⟩
    rw [positions, List.mem_filter, decide_eq_true_iff, List.mem_map]
    refine and_congr_left fun _ => ⟨?_, fun hposition => ?_⟩
    · rintro ⟨other, hother, rfl⟩
      rw [hwanted] at hother
      rw [Nat.mod_eq_of_lt (hnarrow entry hentry other hother)]
      exact hother
    · exact ⟨position, (hwanted position).mpr hposition, Nat.mod_eq_of_lt (hnarrow entry hentry position hposition)⟩
  constructor
  · rintro ⟨positions, hmem, hposition⟩
    obtain ⟨part, hpart, hmem⟩ := List.mem_flatten.mp hmem
    obtain ⟨one, hone, rfl⟩ := List.mem_map.mp hpart
    obtain ⟨entry, hentry, hmatch⟩ := mapM_mem hfound hone
    obtain ⟨data, mask, hdata, hevaluate, ⟨-, rfl⟩ | ⟨-, hfirst, -⟩⟩ := matchSegment_ok hmatch
    · cases hmem
    · rw [hfirst, List.mem_singleton] at hmem
      obtain ⟨rfl, rfl⟩ := Prod.mk.inj hmem
      exact ⟨entry, hentry, rfl, (hmask hentry hdata hevaluate).mp hposition⟩
  · rintro ⟨entry, hentry, rfl, hmatched⟩
    obtain ⟨index, hindex⟩ := List.getElem?_of_mem hentry
    have hforall := mapM_ok hfound
    have hlt : index < found.length := by
      rw [← hforall.length_eq]
      exact (List.getElem?_eq_some_iff.mp hindex).1
    obtain ⟨entry', hentry', hmatch⟩ := (mapM_getElem? hfound).mp (List.getElem?_eq_getElem hlt)
    obtain rfl := Option.some.inj (hindex.symm.trans hentry')
    obtain ⟨data, mask, hdata, hevaluate, ⟨hnone, -⟩ | ⟨-, hfirst, -⟩⟩ := matchSegment_ok hmatch
    · have := (hmask hentry hdata hevaluate).mpr hmatched
      rw [hnone] at this
      cases this
    · refine ⟨_, List.mem_flatten.mpr ⟨_, List.mem_map_of_mem (List.getElem_mem hlt), ?_⟩,
        (hmask hentry hdata hevaluate).mpr hmatched⟩
      rw [hfirst]
      exact List.mem_singleton_self _

theorem Statement.matchSegments_nodup {file : M.File} {current : TableSchema τ} {s : Snapshot τ ν}
    (hids : (s.manifest.segments.map SegmentEntry.segmentId).Nodup) {segments : List (SegmentId × List Nat)}
    {replacements : List (RecordBatch τ ν)}
    (hok : st.matchSegments env file current s = .ok (segments, replacements)) : (segments.map Prod.fst).Nodup := by
  obtain ⟨found, hfound, hok⟩ := bind_eq_ok.mp hok
  obtain ⟨rfl, rfl⟩ := Prod.mk.inj (Except.ok.inj hok)
  have hsub : ∀ {entries : List SegmentEntry} {found : List (List (SegmentId × List Nat) × List (RecordBatch τ ν))},
      entries.mapM (st.matchSegment env file current s) = .ok found →
      ((found.map Prod.fst).flatten.map Prod.fst).Sublist (entries.map SegmentEntry.segmentId) := by
    intro entries found h
    have hforall := mapM_ok h
    clear h
    induction hforall with
    | nil => exact List.Sublist.refl _
    | @cons entry one entries found hone _ ih =>
        rw [List.map_cons, List.flatten_cons, List.map_append, List.map_cons]
        obtain ⟨data, mask, -, -, ⟨-, rfl⟩ | ⟨-, hfirst, -⟩⟩ := matchSegment_ok hone
        · exact ih.cons _
        · rw [hfirst]
          exact ih.cons_cons _
  exact hids.sublist ((hsub hfound).trans (List.filter_sublist.map _))

/-- Everything the search of one memtable batch does. -/
theorem Statement.matchBatch_ok {seqnos : List Nat} {offset : Nat} {batch : RecordBatch τ ν} {hits : List Nat}
    {replacements : List (RecordBatch τ ν)} (h : st.matchBatch env seqnos offset batch = .ok (hits, replacements)) :
    ∃ mask, evaluate st.predicate batch = .ok mask ∧
      hits = (selected mask).filterMap (fun row => seqnos[offset + row]?) ∧ (hits = [] ∧ replacements = [] ∨
        hits ≠ [] ∧ st.collect env batch ((selected mask).filter (· < batch.numRows % 2 ^ 32)) = .ok replacements) := by
  obtain ⟨mask, hmask, h⟩ := bind_eq_ok.mp h
  refine ⟨mask, hmask, ?_⟩
  dsimp only at h
  split at h
  · next hnone =>
      obtain ⟨rfl, rfl⟩ := Prod.mk.inj (Except.ok.inj h)
      exact ⟨(List.isEmpty_iff.mp hnone).symm, .inl ⟨rfl, rfl⟩⟩
  · next hsome =>
      obtain ⟨collected, hcollect, h⟩ := bind_eq_ok.mp h
      obtain ⟨rfl, rfl⟩ := Prod.mk.inj (Except.ok.inj h)
      rw [List.isEmpty_iff] at hsome
      exact ⟨rfl, .inr ⟨hsome, hcollect⟩⟩

/-- The memtable rows a statement names: the numbers at the positions of the rows it wants. -/
theorem Statement.mem_matchMemtable {seqnos : List Nat} {offset : Nat} {batches : List (RecordBatch τ ν)}
    {memtable : List Nat} {replacements : List (RecordBatch τ ν)}
    (h : st.matchMemtable env seqnos offset batches = .ok (memtable, replacements)) (seqno : Nat) :
    seqno ∈ memtable ↔ ∃ index row, (rowsOf batches)[index]? = some row ∧ st.Selects row ∧
      seqnos[offset + index]? = some seqno := by
  induction batches generalizing offset memtable replacements with
  | nil =>
      obtain ⟨rfl, -⟩ := Prod.mk.inj (Except.ok.inj h)
      simp
  | cons batch batches ih =>
      obtain ⟨⟨hits, collected⟩, hbatch, h⟩ := bind_eq_ok.mp h
      obtain ⟨⟨more, rest⟩, hmore, h⟩ := bind_eq_ok.mp h
      obtain ⟨rfl, -⟩ := Prod.mk.inj (Except.ok.inj h)
      obtain ⟨mask, hmask, rfl, -⟩ := matchBatch_ok hbatch
      have hlen : batch.rows.length = batch.numRows := rfl
      rw [List.mem_append, ih hmore, rowsOf_cons, List.mem_filterMap]
      constructor
      · rintro (⟨index, hindex, hseqno⟩ | ⟨index, row, hrow, hselects, hseqno⟩)
        · obtain ⟨row, hrow, hselects⟩ := (mem_selected hmask).mp hindex
          refine ⟨index, row, ?_, hselects, hseqno⟩
          rw [List.getElem?_append_left (List.getElem?_eq_some_iff.mp hrow).1]
          exact hrow
        · refine ⟨batch.numRows + index, row, ?_, hselects, by rw [← Nat.add_assoc]; exact hseqno⟩
          rw [← hlen, List.getElem?_append_right (Nat.le_add_right _ _), Nat.add_sub_cancel_left]
          exact hrow
      · rintro ⟨index, row, hrow, hselects, hseqno⟩
        by_cases hfirst : index < batch.rows.length
        · rw [List.getElem?_append_left hfirst] at hrow
          exact .inl ⟨index, (mem_selected hmask).mpr ⟨row, hrow, hselects⟩, hseqno⟩
        · rw [List.getElem?_append_right (Nat.le_of_not_lt hfirst)] at hrow
          refine .inr ⟨index - batch.rows.length, row, hrow, hselects, ?_⟩
          rw [hlen] at hfirst ⊢
          rw [show offset + batch.numRows + (index - batch.numRows) = offset + index by omega]
          exact hseqno

/-- Each row it wants stands where it stood, or is gone with nothing in its place. -/
def Statement.Paired (st : Statement ν) (taken t : Table M) : Prop :=
  ∀ (index seqno : Nat) (row : Row ν), taken.writer.memtable.live[index]? = some (seqno, row) → st.Selects row →
    t.writer.memtable.liveSeqnos[index]? = some seqno ∨
      t.writer.memtable.liveSeqnos[index]? = none ∧ seqno ∉ t.writer.memtable.liveSeqnos

theorem Statement.Paired.named {taken t : Table M} (h : st.Paired taken t) (htidy : taken.Tidy) {memtable : List Nat}
    {replacements : List (RecordBatch τ ν)}
    (hok : st.matchMemtable env t.writer.memtable.liveSeqnos 0 taken.current.memtable = .ok (memtable, replacements))
    (seqno : Nat) : seqno ∈ memtable ↔ st.Matched env taken (.memtable seqno) ∧ t.Live (.memtable seqno) := by
  rw [mem_matchMemtable hok, htidy.shown]
  constructor
  · rintro ⟨index, row, hrow, hselects, hseqno⟩
    rw [List.getElem?_map, Option.map_eq_some_iff] at hrow
    obtain ⟨⟨own, row'⟩, hown, rfl⟩ := hrow
    rw [Nat.zero_add] at hseqno
    rcases h index own row' hown hselects with hsame | ⟨hnone, -⟩
    · obtain rfl := Option.some.inj (hsame.symm.trans hseqno)
      exact ⟨⟨row', List.mem_of_getElem? hown, hselects⟩, List.mem_of_getElem? hseqno⟩
    · cases hnone.symm.trans hseqno
  · rintro ⟨⟨row, hmem, hselects⟩, hlive⟩
    obtain ⟨index, hindex⟩ := List.getElem?_of_mem hmem
    refine ⟨index, row, by rw [List.getElem?_map, hindex]; rfl, hselects, ?_⟩
    rw [Nat.zero_add]
    exact (h index seqno row hindex hselects).resolve_right fun hgone => hgone.2 hlive

end Matches

section Delete

/-- Where the steps of a run may be taken: a segment read, the memtable numbered, the memtable flushed. -/
structure Statement.Guard (M : Media τ ν) where
  reading : Table M → Prop
  numbering : Table M → Table M → Prop
  flushing : Table M → Table M → Prop

def Statement.Guard.Allows (guard : Guard M) (t : Table M) : Stage M → Prop
  | .took taken => guard.reading taken
  | .read taken _ _ => guard.numbering taken t
  | _ => True

/-- Anything goes. -/
def Statement.Guard.free : Guard M := ⟨fun _ => True, fun _ _ => True, fun _ _ => True⟩

/-- No row that matched leaves the memtable for a segment. -/
def Statement.Stays (env : Env τ ν) (st : Statement ν) (taken t : Table M) : Prop :=
  ∀ seqno ∈ t.writer.memtable.liveSeqnos, ¬st.Matched env taken (.memtable seqno)

/-- The steps a `DELETE` is safe over. -/
def Statement.careful (env : Env τ ν) (st : Statement ν) : Guard M := ⟨st.Narrow env, st.Paired, st.Stays env⟩

variable [DecidableEq τ]

/-- A statement whose snapshot is of `taken`, among the steps of other callers. `moved` are the memtable rows that
were written to segments meanwhile. -/
inductive Statement.Run (env : Env τ ν) (st : Statement ν) (guard : Guard M) (taken : Table M) :
    Table M → Stage M → Set Nat → Prop where
  | start (h : Table.Reachable env taken) : Run env st guard taken taken.pin (.took taken) ∅
  | step {t t' : Table M} {a a' : Stage M} {moved : Set Nat} (hrun : Run env st guard taken t a moved)
      (hguard : guard.Allows t a) (hstep : st.Step env t a t' a') : Run env st guard taken t' a' moved
  | other {t t' : Table M} {a : Stage M} {moved : Set Nat} (hrun : Run env st guard taken t a moved)
      (hother : Table.Other env t t') : Run env st guard taken t' a moved
  | flush {t t' : Table M} {a : Stage M} {moved : Set Nat} {rows : Nat} (hrun : Run env st guard taken t a moved)
      (hguard : guard.flushing taken t) (h : t.flushLocked env = .ok (rows, t')) :
      Run env st guard taken t' a (moved ∪ { seqno | seqno ∈ t.writer.memtable.liveSeqnos })
  | pin {t : Table M} {a : Stage M} {moved : Set Nat} (hrun : Run env st guard taken t a moved) :
      Run env st guard taken t.pin a moved
  | unpin {t : Table M} {a : Stage M} {moved : Set Nat} (index : Nat) (hrun : Run env st guard taken t a moved)
      (hheld : taken.current ∈ (t.unpin index).pins) : Run env st guard taken (t.unpin index) a moved

variable {env : Env τ ν} {st : Statement ν} {taken t t' : Table M}

theorem Table.Other.locked (h : Table.Other env t t') : Table.Locked env t t' := by
  cases h with
  | insert batches h => exact .insert batches h
  | delete segmentDeletions memtableSeqnos h => exact .delete segmentDeletions memtableSeqnos h
  | update segmentDeletions memtableSeqnos replacements h => exact .update segmentDeletions memtableSeqnos replacements h

/-- A write leaves the schema and the pins alone, and ages the rows. -/
theorem Table.Other.spec (h : Table.Other env t t') (htidy : t.Tidy) :
    t'.schema = t.schema ∧ t'.pins = t.pins ∧ t.Ages t' := by
  cases h with
  | insert batches h =>
      rcases (insertLocked_ok h).2 with ⟨-, rfl⟩ | ⟨-, -, happend⟩
      · exact ⟨rfl, rfl, .refl t'⟩
      · refine ⟨?_, ?_, appendRows_ages htidy happend⟩
        · obtain ⟨frames, wal, -, -, rfl⟩ := appendRows_ok happend
          rfl
        · obtain ⟨frames, wal, -, -, rfl⟩ := appendRows_ok happend
          rfl
  | delete segmentDeletions memtableSeqnos h =>
      refine ⟨?_, ?_, delete_ages htidy h⟩
      · rcases delete_ok h with ⟨rfl, -⟩ | ⟨planned, frame, wal, -, -, -, rfl⟩
        · rfl
        · rfl
      · rcases delete_ok h with ⟨rfl, -⟩ | ⟨planned, frame, wal, -, -, -, rfl⟩
        · rfl
        · rfl
  | update segmentDeletions memtableSeqnos replacements h =>
      rcases updateLocked_ok h with ⟨rfl, -⟩ | ⟨-, hreplace⟩
      · exact ⟨rfl, rfl, .refl t'⟩
      · refine ⟨?_, ?_, replaceRows_ages htidy hreplace⟩
        · obtain ⟨planned, -, ⟨rfl, -⟩ | ⟨merged, frame, wal, -, -, -, rfl⟩⟩ := replaceRows_ok hreplace
          · rfl
          · rfl
        · obtain ⟨planned, -, ⟨rfl, -⟩ | ⟨merged, frame, wal, -, -, -, rfl⟩⟩ := replaceRows_ok hreplace
          · rfl
          · rfl

theorem Table.flushLocked_spec {rows : Nat} (h : t.flushLocked env = .ok (rows, t')) (htidy : t.Tidy) :
    t'.schema = t.schema ∧ t'.pins = t.pins ∧ t.Ages t' := by
  refine ⟨?_, ?_, flushLocked_ages htidy h⟩
  · rcases flushLocked_ok h with ⟨-, rfl⟩ | ⟨pending, f, -, -, -, rfl⟩
    · rfl
    · rfl
  · rcases flushLocked_ok h with ⟨-, rfl⟩ | ⟨pending, f, -, -, -, rfl⟩
    · rfl
    · rfl

/-- What a statement under way knows of its snapshot in the table as it is now. -/
structure Statement.Current (env : Env τ ν) (taken t : Table M) : Prop where
  reach : Table.Reachable env t
  held : taken.current ∈ t.pins
  holds : Holds taken t
  ages : taken.Ages t

namespace Statement.Current

theorem start (h : Table.Reachable env taken) : Current env taken taken.pin :=
  ⟨.step h (.pin taken), List.mem_cons_self, ⟨rfl, fun _ _ _ => rfl⟩, ⟨fun _ h => h, fun _ _ h => h⟩⟩

/-- A locked step of anybody that leaves the schema and the pins alone. -/
theorem locked (h : Current env taken t) (hstep : Table.Locked env t t') (hschema : t'.schema = t.schema)
    (hpins : t'.pins = t.pins) (hages : t.Ages t') : Current env taken t' := by
  refine ⟨.step h.reach hstep, hpins ▸ h.held, ⟨hschema.trans h.holds.schema, fun e he k => ?_⟩, h.ages.trans hages⟩
  exact (h.reach.reads_held hstep h.held he k).trans (h.holds.reads e he k)

theorem pin (h : Current env taken t) : Current env taken t.pin :=
  ⟨.step h.reach (.pin t), List.mem_cons_of_mem _ h.held, ⟨h.holds.schema, h.holds.reads⟩, ⟨h.ages.given, h.ages.dead⟩⟩

theorem unpin (h : Current env taken t) (index : Nat) (hheld : taken.current ∈ (t.unpin index).pins) :
    Current env taken (t.unpin index) :=
  ⟨.step h.reach (.unpin t index), hheld, ⟨h.holds.schema, h.holds.reads⟩, ⟨h.ages.given, h.ages.dead⟩⟩

end Statement.Current

/-- What a statement has found is what its snapshot has, as far as it is still there. -/
def Statement.Stage.Right (env : Env τ ν) (st : Statement ν) (taken t : Table M) : Stage M → Prop
  | took taken' => taken' = taken
  | read taken' segments _ => taken' = taken ∧ (segments.map Prod.fst).Nodup ∧
      ∀ id position, (RowId.segment id position).Named segments [] ↔ st.Matched env taken (.segment id position)
  | numbered taken' segments memtable _ => taken' = taken ∧ (segments.map Prod.fst).Nodup ∧
      (∀ id position, (RowId.segment id position).Named segments [] ↔ st.Matched env taken (.segment id position)) ∧
      ∀ seqno, (seqno ∈ memtable → st.Matched env taken (.memtable seqno)) ∧
        (st.Matched env taken (.memtable seqno) → t.Live (.memtable seqno) → seqno ∈ memtable)
  | done => True

/-- Rows that are gone stay gone, so what was found stays right. -/
theorem Statement.Stage.Right.ages {a : Stage M} (h : a.Right env st taken t) (hcurrent : Current env taken t)
    (htidy : taken.Tidy) (hages : t.Ages t') : a.Right env st taken t' := by
  cases a with
  | took taken' => exact h
  | read taken' segments replacements => exact h
  | numbered taken' segments memtable replacements =>
      obtain ⟨htaken, hnodup, hsegments, hmemtable⟩ := h
      refine ⟨htaken, hnodup, hsegments, fun seqno => ⟨(hmemtable seqno).1, fun hmatched hlive => ?_⟩⟩
      have hgiven : taken.Given (.memtable seqno) := by
        obtain ⟨row, hmem, -⟩ := hmatched
        have hheld : taken.Live (.memtable seqno) := by
          change seqno ∈ taken.writer.memtable.liveSeqnos
          rw [Memtable.liveSeqnos_eq]
          exact List.mem_map_of_mem hmem
        exact htidy.live_given hheld
      exact (hmemtable seqno).2 hmatched (hages.dead _ (hcurrent.ages.given _ hgiven) hlive)
  | done => trivial

theorem Statement.Run.right {a : Stage M} {moved : Set Nat} (hrun : Run env st (st.careful env) taken t a moved) :
    Table.Reachable env taken ∧ Current env taken t ∧ a.Right env st taken t ∧ ∀ seqno ∈ moved, ¬st.Matched env taken (.memtable seqno) := by
  induction hrun with
  | start h => exact ⟨h, .start h, rfl, fun _ hmem => absurd hmem (Set.notMem_empty _)⟩
  | @step t t' a a' moved _ hguard hstep ih =>
      obtain ⟨hreach, hcurrent, hright, hmoved⟩ := ih
      cases hstep with
      | @read taken' segments replacements hok =>
          obtain rfl : taken' = taken := hright
          refine ⟨hreach, hcurrent, ⟨rfl, matchSegments_nodup ?_ hok, fun id position => ?_⟩, hmoved⟩
          · rw [hreach.isolated.synced.manifest]
            exact hreach.tidy.numbered.nodup
          · exact matchSegments_named hcurrent.holds hreach.tidy hguard hok id position
      | @number taken' segments memtable replacements more hok =>
          obtain ⟨rfl, hnodup, hsegments⟩ := hright
          refine ⟨hreach, hcurrent, ⟨rfl, hnodup, hsegments, fun seqno => ?_⟩, hmoved⟩
          have hnamed := Statement.Paired.named hguard hreach.tidy hok seqno
          exact ⟨fun hmem => (hnamed.mp hmem).1, fun hmatched hlive => hnamed.mpr ⟨hmatched, hlive⟩⟩
      | nothing hnone => exact ⟨hreach, hcurrent, trivial, hmoved⟩
      | delete hkind hsome hok =>
          have hother : Table.Other env t t' := .delete _ _ hok
          obtain ⟨hschema, hpins, hages⟩ := hother.spec hcurrent.reach.tidy
          exact ⟨hreach, hcurrent.locked hother.locked hschema hpins hages, trivial, hmoved⟩
      | update hkind hsome hok =>
          have hother : Table.Other env t t' := .update _ _ _ hok
          obtain ⟨hschema, hpins, hages⟩ := hother.spec hcurrent.reach.tidy
          exact ⟨hreach, hcurrent.locked hother.locked hschema hpins hages, trivial, hmoved⟩
  | other _ hother ih =>
      obtain ⟨hreach, hcurrent, hright, hmoved⟩ := ih
      obtain ⟨hschema, hpins, hages⟩ := hother.spec hcurrent.reach.tidy
      exact ⟨hreach, hcurrent.locked hother.locked hschema hpins hages, hright.ages hcurrent hreach.tidy hages, hmoved⟩
  | flush _ hguard hok ih =>
      obtain ⟨hreach, hcurrent, hright, hmoved⟩ := ih
      obtain ⟨hschema, hpins, hages⟩ := Table.flushLocked_spec hok hcurrent.reach.tidy
      refine ⟨hreach, hcurrent.locked (.flush hok) hschema hpins hages, hright.ages hcurrent hreach.tidy hages, fun seqno hmem => ?_⟩
      rcases hmem with hmem | hmem
      · exact hmoved seqno hmem
      · exact hguard seqno hmem
  | pin _ ih =>
      obtain ⟨hreach, hcurrent, hright, hmoved⟩ := ih
      exact ⟨hreach, hcurrent.pin, hright.ages hcurrent hreach.tidy ⟨fun _ h => h, fun _ _ h => h⟩, hmoved⟩
  | unpin index _ hheld ih =>
      obtain ⟨hreach, hcurrent, hright, hmoved⟩ := ih
      exact ⟨hreach, hcurrent.unpin index hheld, hright.ages hcurrent hreach.tidy ⟨fun _ h => h, fun _ _ h => h⟩, hmoved⟩

/-- A `DELETE` removes exactly the rows it matched. Over steps that leave the rows it matched in their places in the
memtable, the rows it takes away are those of its snapshot that satisfy the predicate and are still there,
under the name they had or in a segment they were moved to. -/
theorem delete_removes_matched {segments : List (SegmentId × List Nat)} {memtable : List Nat}
    {replacements : List (RecordBatch τ ν)} {moved : Set Nat} (hdelete : st.assignments = [])
    (hrun : Statement.Run env st (st.careful env) taken t (.numbered taken segments memtable replacements) moved)
    (hstep : st.Step env t (.numbered taken segments memtable replacements) t' .done) (id : RowId) :
    t.Live id ∧ ¬t'.Live id ↔ st.Matched env taken id ∧ (t.Live id ∨ ∃ seqno ∈ moved, id = .memtable seqno) := by
  obtain ⟨-, -, ⟨-, hnodup, hsegments, hmemtable⟩, hmoved⟩ := hrun.right
  have hstill : st.Matched env taken id ∧ (t.Live id ∨ ∃ seqno ∈ moved, id = .memtable seqno) ↔
      st.Matched env taken id ∧ t.Live id := by
    refine and_congr_right fun hmatched => or_iff_left ?_
    rintro ⟨seqno, hmem, rfl⟩
    exact hmoved seqno hmem hmatched
  have hnamed : t.Live id → (id.Named segments memtable ↔ st.Matched env taken id) := by
    intro hlive
    cases id with
    | segment id position => exact hsegments id position
    | memtable seqno => exact ⟨(hmemtable seqno).1, fun hmatched => (hmemtable seqno).2 hmatched hlive⟩
  rw [hstill]
  cases hstep with
  | nothing hnone =>
      -- nothing matched that is still there
      have hfree : ¬id.Named segments memtable := RowId.not_named_of_matchCount hnone
      constructor
      · exact fun h => absurd h.1 h.2
      · exact fun h => absurd ((hnamed h.2).mpr h.1) hfree
  | delete _ hsome hok =>
      have hafter := Table.delete_live hnodup hok id
      constructor
      · rintro ⟨hlive, hgone⟩
        rw [hafter, not_and_not_right] at hgone
        exact ⟨(hnamed hlive).mp (hgone hlive), hlive⟩
      · rintro ⟨hmatched, hlive⟩
        exact ⟨hlive, fun h => (hafter.mp h).2 ((hnamed hlive).mpr hmatched)⟩
  | update hkind => exact absurd hdelete hkind

end Delete

section Shifted

/-- `DELETE FROM t WHERE value = 7`. -/
def deleteSevens : Statement Nat := ⟨some fun row => .ok (some (row == [7])), []⟩

def dmlEnv : Env Unit Nat :=
  plainEnv plainOptions [.insert 1 0 ⟨[()], [[7], [8]]⟩, .insert 2 2 ⟨[()], [[9]]⟩, .delete 2 [] [0], .delete 3 [] [0],
    .delete 3 [] [1]]

/-- A table that holds a seven and an eight in memory. -/
def twoRows : Except Error (PlainTable × PlainTable) := do
  let t₀ ← Table.create dmlEnv (Journal plainSizes) plainSchema (fun _ => 0) (fun _ => []) none
  let (_, t) ← t₀.insertLocked dmlEnv [⟨plainSchema.fields, [[7], [8]]⟩]
  return (t₀, t)

theorem twoRows_reachable {t₀ t : PlainTable} (h : twoRows = .ok (t₀, t)) : Table.Reachable dmlEnv t := by
  obtain ⟨t₀', hcreate, h⟩ := bind_eq_ok.mp h
  obtain ⟨⟨_, t'⟩, hinsert, h⟩ := bind_eq_ok.mp h
  obtain ⟨rfl, rfl⟩ := Prod.mk.inj (Except.ok.inj h)
  exact .step (.create _ _ _ hcreate) (.insert _ hinsert)

/-- What a statement does to the end once it has its snapshot, with one step of another caller in between. -/
def deleteAfter (other : PlainTable → Except Error (Nat × PlainTable)) :
    Except Error (PlainTable × PlainTable × PlainTable × PlainTable × List (SegmentId × List Nat) × List Nat ×
      List (RecordBatch Unit Nat) × List (RecordBatch Unit Nat)) := do
  let (t₀, taken) ← twoRows
  let (_, t) ← other taken.pin
  let (segments, replacements) ← deleteSevens.matchSegments dmlEnv t.writer.file.io.file t.schema taken.current
  let (memtable, more) ← deleteSevens.matchMemtable dmlEnv t.writer.memtable.liveSeqnos 0 taken.current.memtable
  let (_, t') ← t.delete dmlEnv segments memtable
  return (t₀, taken, t, t', segments, memtable, replacements, more)

/-- A run of `deleteAfter`, part by part. -/
theorem deleteAfter_ok {other : PlainTable → Except Error (Nat × PlainTable)} {t₀ taken t t' : PlainTable}
    {segments : List (SegmentId × List Nat)} {memtable : List Nat} {replacements more : List (RecordBatch Unit Nat)}
    (h : deleteAfter other = .ok (t₀, taken, t, t', segments, memtable, replacements, more)) :
    Table.Reachable dmlEnv taken ∧ (∃ rows, other taken.pin = .ok (rows, t)) ∧
      deleteSevens.matchSegments dmlEnv t.writer.file.io.file t.schema taken.current = .ok (segments, replacements) ∧
      deleteSevens.matchMemtable dmlEnv t.writer.memtable.liveSeqnos 0 taken.current.memtable = .ok (memtable, more) ∧
      ∃ deleted, t.delete dmlEnv segments memtable = .ok (deleted, t') := by
  obtain ⟨⟨t₀', taken'⟩, htaken, h⟩ := bind_eq_ok.mp h
  obtain ⟨⟨rows, t₁⟩, hother, h⟩ := bind_eq_ok.mp h
  obtain ⟨⟨segments', replacements'⟩, hread, h⟩ := bind_eq_ok.mp h
  obtain ⟨⟨memtable', more'⟩, hnumber, h⟩ := bind_eq_ok.mp h
  obtain ⟨⟨deleted, t₂⟩, hdelete, h⟩ := bind_eq_ok.mp h
  simp only [pure, Except.pure, Except.ok.injEq, Prod.mk.injEq] at h
  obtain ⟨rfl, rfl, rfl, rfl, rfl, rfl, rfl, rfl⟩ := h
  exact ⟨twoRows_reachable htaken, ⟨rows, hother⟩, hread, hnumber, deleted, hdelete⟩

/-- A nine is inserted after the snapshot was taken. -/
def insertNine (t : PlainTable) : Except Error (Nat × PlainTable) := t.insertLocked dmlEnv [⟨plainSchema.fields, [[9]]⟩]

theorem sevens_removed_beside_insert : ∃ (taken t t' : PlainTable) (segments : List (SegmentId × List Nat))
    (memtable : List Nat) (replacements : List (RecordBatch Unit Nat)),
    t.writer.memtable.live = [(0, [7]), (1, [8]), (2, [9])] ∧ t'.writer.memtable.live = [(1, [8]), (2, [9])] ∧
    deleteSevens.Step dmlEnv t (.numbered taken segments memtable replacements) t' .done ∧
    ∀ id, t.Live id ∧ ¬t'.Live id ↔ deleteSevens.Matched dmlEnv taken id ∧
      (t.Live id ∨ ∃ seqno ∈ (∅ : Set Nat), id = .memtable seqno) := by
  have hcheck : (match deleteAfter insertNine with
      | .ok (_, taken, t, t', segments, memtable, _, _) => decide (taken.current.liveSegments = [] ∧
          taken.writer.memtable.live = [(0, [7]), (1, [8])] ∧ t.writer.memtable.live = [(0, [7]), (1, [8]), (2, [9])] ∧
          t.writer.memtable.liveSeqnos = [0, 1, 2] ∧ t'.writer.memtable.live = [(1, [8]), (2, [9])] ∧
          matchCount segments memtable ≠ 0)
      | .error _ => false) = true := by decide +kernel
  cases hrun : deleteAfter insertNine with
  | error e => rw [hrun] at hcheck; cases hcheck
  | ok result =>
      obtain ⟨t₀, taken, t, t', segments, memtable, replacements, more⟩ := result
      rw [hrun] at hcheck
      obtain ⟨hsegments, hbefore, hlive, hseqnos, hafter, hcount⟩ := of_decide_eq_true hcheck
      obtain ⟨hreach, ⟨rows, hinsert⟩, hread, hnumber, deleted, hdelete⟩ := deleteAfter_ok hrun
      have hnarrow : deleteSevens.Narrow dmlEnv taken := by
        intro entry hentry
        rw [hsegments] at hentry
        cases hentry
      have hpaired : deleteSevens.Paired taken t := by
        intro index seqno row hindex _
        rw [hbefore] at hindex
        rw [hseqnos]
        match index with
        | 0 => exact .inl (by simpa using congrArg (Option.map Prod.fst) hindex)
        | 1 => exact .inl (by simpa using congrArg (Option.map Prod.fst) hindex)
        | index + 2 => simp at hindex
      have hsteps : Statement.Run dmlEnv deleteSevens (deleteSevens.careful dmlEnv) taken t
          (.numbered taken segments memtable (replacements ++ more)) ∅ :=
        .step (.step (.other (.start hreach) (.insert _ hinsert)) hnarrow (.read hread)) hpaired (.number hnumber)
      have hstep : deleteSevens.Step dmlEnv t (.numbered taken segments memtable (replacements ++ more)) t' .done :=
        .delete rfl hcount hdelete
      exact ⟨taken, t, t', segments, memtable, replacements ++ more, hlive, hafter, hstep,
        delete_removes_matched rfl hsteps hstep⟩

/-- The seven is deleted by another caller after the snapshot was taken. -/
def deleteFirst (t : PlainTable) : Except Error (Nat × PlainTable) := t.delete dmlEnv [] [0]

/-- The statement matched the seven, which somebody else deleted meanwhile; the number at its place is the eight's,
and the eight goes. -/
theorem eight_removed_for_seven : ∃ (taken t t' : PlainTable) (segments : List (SegmentId × List Nat))
    (memtable : List Nat) (replacements : List (RecordBatch Unit Nat)),
    Statement.Run dmlEnv deleteSevens .free taken t (.numbered taken segments memtable replacements) ∅ ∧
    deleteSevens.Step dmlEnv t (.numbered taken segments memtable replacements) t' .done ∧
    t.writer.memtable.live = [(1, [8])] ∧ t'.writer.memtable.live = [] ∧
    ¬∀ id, t.Live id ∧ ¬t'.Live id ↔ deleteSevens.Matched dmlEnv taken id ∧
      (t.Live id ∨ ∃ seqno ∈ (∅ : Set Nat), id = .memtable seqno) := by
  have hcheck : (match deleteAfter deleteFirst with
      | .ok (_, taken, t, t', segments, memtable, _, _) => decide (
          taken.writer.memtable.live = [(0, [7]), (1, [8])] ∧ t.writer.memtable.live = [(1, [8])] ∧
          t'.writer.memtable.live = [] ∧ matchCount segments memtable ≠ 0)
      | .error _ => false) = true := by decide +kernel
  cases hrun : deleteAfter deleteFirst with
  | error e => rw [hrun] at hcheck; cases hcheck
  | ok result =>
      obtain ⟨t₀, taken, t, t', segments, memtable, replacements, more⟩ := result
      rw [hrun] at hcheck
      obtain ⟨hbefore, hlive, hafter, hcount⟩ := of_decide_eq_true hcheck
      obtain ⟨hreach, ⟨rows, hother⟩, hread, hnumber, deleted, hdelete⟩ := deleteAfter_ok hrun
      refine ⟨taken, t, t', segments, memtable, replacements ++ more, ?_, .delete rfl hcount hdelete, hlive, hafter, ?_⟩
      · exact .step (.step (.other (.start hreach) (.delete _ _ hother)) trivial (.read hread)) trivial (.number hnumber)
      · intro hclaim
        have hgone : t.Live (.memtable 1) ∧ ¬t'.Live (.memtable 1) := by
          simp only [Table.Live, Memtable.liveSeqnos_eq, hlive, hafter]
          decide
        obtain ⟨⟨row, hmem, hselects⟩, -⟩ := (hclaim (.memtable 1)).mp hgone
        rw [hbefore] at hmem
        obtain rfl : row = [8] := by simpa using hmem
        exact absurd hselects (by simp [Statement.Selects, deleteSevens])

end Shifted

end LocalTables
