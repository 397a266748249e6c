import LocalTables.Table.Rows
import LocalTables.Table.Layouts

/-! The rows of a table: those of its segments that are not deleted, and those of the memtable. A scan of what readers are
shown returns exactly these. -/

namespace LocalTables

variable {τ ν : Type} {M : Media τ ν}

section Segment

variable (env : Env τ ν)

/-- The rows of a segment that are not deleted, as a reader of a schema sees them. -/
def SegmentEntry.rowsIn (file : M.File) (schema : TableSchema τ) (deleted : Finset Nat) (entry : SegmentEntry) :
    List (Row ν) :=
  match segmentReader file entry schema.layout with
  | .ok data => (data.live deleted).map fun row => padRow env schema.schema.fields data row.1
  | .error _ => []

variable {env} {file file' : M.File} {schema : TableSchema τ} {entry : SegmentEntry} {data : SegmentData ν}

theorem SegmentEntry.Stores.reads (h : entry.Stores file data)
    (haccepts : layoutAccepts schema.layout data.columns data.schemaFingerprint = true) :
    segmentReader file entry schema.layout = .ok data := segmentReader_eq_ok h.read haccepts

theorem SegmentEntry.rowsIn_eq (h : segmentReader file entry schema.layout = .ok data) (deleted : Finset Nat) :
    entry.rowsIn env file schema deleted = (data.live deleted).map fun row => padRow env schema.schema.fields data row.1 := by
  simp only [rowsIn, h]

theorem SegmentEntry.rowsIn_congr {entry' : SegmentEntry} (hdata : entry'.data = entry.data) (hmeta : entry'.metaAt = entry.metaAt)
    (hread : M.read file' entry.data (.segment entry.metaAt) = M.read file entry.data (.segment entry.metaAt))
    (deleted : Finset Nat) : entry'.rowsIn env file' schema deleted = entry.rowsIn env file schema deleted := by
  have hreader : segmentReader file' entry' schema.layout = segmentReader file entry schema.layout := by
    simp only [segmentReader, hdata, hmeta, hread]
  simp only [rowsIn, hreader]

theorem SegmentData.live_empty (data : SegmentData ν) : (data.live ∅).map Prod.fst = data.rows := by
  simp [live]

/-- A segment that was just written has the rows it was built from. -/
theorem SegmentEntry.rowsIn_new (h : segmentReader file entry schema.layout = .ok data)
    (hcolumns : data.columns = schema.schema.fields.length) : entry.rowsIn env file schema ∅ = data.rows := by
  have hpad : (fun row : Row ν × Nat => padRow env schema.schema.fields data row.1) = Prod.fst := by
    funext row
    simp [padRow, hcolumns]
  rw [rowsIn_eq h, hpad, data.live_empty]

theorem SegmentEntry.length_rowsIn_le (deleted : Finset Nat) :
    (entry.rowsIn env file schema deleted).length ≤ (entry.rowsIn env file schema ∅).length := by
  unfold rowsIn
  split
  · next data _ =>
      have hall := congrArg List.length data.live_empty
      rw [List.length_map] at hall
      rw [List.length_map, List.length_map, hall]
      exact (List.length_filter_le _ _).trans (by simp)
  · exact le_rfl

end Segment

/-- The rows left of a segment are as many as the snapshot counts, where it deletes only rows there are. -/
theorem Snapshot.length_live {s : Snapshot τ ν} {entry : SegmentEntry} {data : SegmentData ν}
    (hrows : data.rows.length = entry.rowCount)
    (hbelow : ∀ position ∈ (s.deletes entry.segmentId).getD ∅, position < entry.rowCount) :
    (data.live ((s.deletes entry.segmentId).getD ∅)).length = s.liveRowsIn entry := by
  obtain ⟨hcard, hlen⟩ := Table.length_range_filter hbelow
  have hpositions : (data.live ((s.deletes entry.segmentId).getD ∅)).map Prod.snd =
      (List.range entry.rowCount).filter fun position => position ∉ (s.deletes entry.segmentId).getD ∅ := by
    rw [SegmentData.live, ← hrows, List.range_eq_range', ← List.zipIdx_map_snd, List.filter_map]
    rfl
  have hcount := congrArg List.length hpositions
  rw [List.length_map, hlen] at hcount
  rw [hcount, Snapshot.liveRowsIn]
  cases hdeletes : s.deletes entry.segmentId with
  | none => rfl
  | some rows =>
      rw [hdeletes] at hcard
      rw [Option.getD_some] at hcard ⊢
      rw [Option.map_some, Option.getD_some, Nat.min_eq_left hcard]

theorem Snapshot.Counted.length_live {file : M.File} {s : Snapshot τ ν} (h : s.Counted file) {entry : SegmentEntry}
    (hentry : entry ∈ s.manifest.segments) {data : SegmentData ν}
    (hread : M.read file entry.data (.segment entry.metaAt) = .ok (.segment data)) :
    (data.live ((s.deletes entry.segmentId).getD ∅)).length = s.liveRowsIn entry := by
  obtain ⟨data', hstores⟩ := h.stores entry hentry
  have hdata := Except.ok.inj (hstores.read.symm.trans hread)
  refine Snapshot.length_live (Blob.segment.inj hdata ▸ hstores.rows) ?_
  cases hdeletes : s.deletes entry.segmentId with
  | none => simp
  | some rows => exact h.bounded entry hentry rows hdeletes

/-- What is listed once some of the old segments are retired. -/
theorem Wrote.retired {current : TableSchema τ} {minActive : Nat} {p p' : Pending M}
    {new : List (SegmentEntry × SegmentData ν)} (h : Wrote current minActive p p' new) {ids : List SegmentId}
    (sources : List SegmentEntry) (hbelow : ∀ id ∈ ids, id < p.manifest.nextSegmentId) :
    (p'.manifest.retire ids sources).segments =
      (p.manifest.segments.filter fun entry => entry.segmentId ∉ ids) ++ new.map Prod.fst := by
  rw [Manifest.segments_retire, h.segments, List.filter_append]
  congr 1
  refine List.filter_eq_self.mpr fun entry hentry => decide_eq_true fun hid => ?_
  obtain ⟨x, hx, rfl⟩ := List.mem_map.mp hentry
  exact absurd (hbelow _ hid) (Nat.not_lt.mpr (h.fresh x hx))

namespace Table

variable {env : Env τ ν} {t t' : Table M}

/-- The rows of one of the table's segments. -/
def rowsOfSegment (env : Env τ ν) (t : Table M) (entry : SegmentEntry) : List (Row ν) :=
  entry.rowsIn env t.writer.file.io.file t.schema ((t.writer.deletes entry.segmentId).getD ∅)

/-- The rows of the table. -/
def rows (env : Env τ ν) (t : Table M) : Multiset (Row ν) :=
  ↑(t.writer.file.committed.manifest.segments.flatMap (t.rowsOfSegment env)) + ↑(t.writer.memtable.live.map Prod.snd)

/-- What readers are shown of the deletions is what the writer holds. -/
def Fresh (t : Table M) : Prop := ∀ id, (t.current.deletes id).getD ∅ = (t.writer.deletes id).getD ∅

theorem fresh_snapshot (w : Writer M) (current : TableSchema τ) (id : SegmentId) :
    ((w.snapshot current).deletes id).getD ∅ = (w.deletes id).getD ∅ := by
  change ((w.deletes id).filter fun rows => rows ≠ ∅).getD ∅ = (w.deletes id).getD ∅
  cases w.deletes id with
  | none => rfl
  | some rows =>
      by_cases hempty : rows = ∅
      · simp [Option.filter, hempty]
      · simp [Option.filter, hempty]

theorem fresh_publish (t : Table M) : t.publish.Fresh := fresh_snapshot t.writer t.schema

theorem Fresh.congr (h : t.Fresh) (hcurrent : t'.current = t.current) (hdeletes : t'.writer.deletes = t.writer.deletes) :
    t'.Fresh := by
  unfold Fresh
  rw [hcurrent, hdeletes]
  exact h

theorem rowsOfSegment_dead {s : Snapshot τ ν} (hcounted : s.Counted t.writer.file.io.file) {entry : SegmentEntry}
    (hentry : entry ∈ s.manifest.segments)
    (hdeletes : (s.deletes entry.segmentId).getD ∅ = (t.writer.deletes entry.segmentId).getD ∅)
    (hdead : s.liveRowsIn entry = 0) : t.rowsOfSegment env entry = [] := by
  unfold rowsOfSegment SegmentEntry.rowsIn
  split
  · next data hdata =>
      have hlen := hcounted.length_live hentry (segmentReader_ok hdata).1
      rw [hdeletes, hdead] at hlen
      rw [List.length_eq_zero_iff.mp hlen, List.map_nil]
  · rfl

/-- A scan of what readers are shown returns the rows of the table. -/
theorem scan_rows (htidy : t.Tidy) (hsynced : t.Synced) (hfresh : t.Fresh) (hcounted : t.current.Counted t.writer.file.io.file)
    (hopens : ∀ entry ∈ t.current.liveSegments, ∃ data, segmentReader t.writer.file.io.file entry t.schema.layout = .ok data) :
    ∃ all, scanTable env t.writer.file.io.file t.current = .ok all ∧ (rowsOf all : Multiset (Row ν)) = t.rows env := by
  have hsegment : ∀ entry ∈ t.current.liveSegments, ∃ batches,
      readSegment env t.writer.file.io.file t.current entry = .ok batches ∧ rowsOf batches = t.rowsOfSegment env entry := by
    intro entry hentry
    obtain ⟨data, hdata⟩ := hopens entry hentry
    rw [← htidy.shownLayout] at hdata
    cases hread : readSegment env t.writer.file.io.file t.current entry with
    | error e =>
        rw [readSegment, readSegmentAs, hdata] at hread
        cases hread
    | ok batches =>
        obtain ⟨data', hdata', hrows⟩ := readSegmentAs_rows hread
        refine ⟨batches, rfl, ?_⟩
        rw [htidy.shownLayout] at hdata'
        rw [hrows, rowsOfSegment, SegmentEntry.rowsIn_eq hdata', ← hfresh, htidy.shownSchema]
  have hall : ∀ entries : List SegmentEntry, (∀ entry ∈ entries, entry ∈ t.current.liveSegments) → ∃ found,
      (entries.mapM fun entry => readSegment env t.writer.file.io.file t.current entry) = .ok found ∧
        rowsOf found.flatten = entries.flatMap (t.rowsOfSegment env) := by
    intro entries hentries
    induction entries with
    | nil => exact ⟨[], rfl, rfl⟩
    | cons entry entries ih =>
        obtain ⟨batches, hread, hrows⟩ := hsegment entry (hentries entry List.mem_cons_self)
        obtain ⟨found, hfound, hmore⟩ := ih fun other hother => hentries other (List.mem_cons_of_mem _ hother)
        refine ⟨batches :: found, ?_, ?_⟩
        · rw [List.mapM_cons, hread, hfound]
          rfl
        · rw [List.flatten_cons, rowsOf_append, hrows, hmore, List.flatMap_cons]
  have hlive : t.current.liveSegments.flatMap (t.rowsOfSegment env) =
      t.writer.file.committed.manifest.segments.flatMap (t.rowsOfSegment env) := by
    -- a segment with nothing live has nothing to show
    rw [← hsynced.manifest]
    have hdead : ∀ entry ∈ t.current.manifest.segments, ¬t.current.liveRowsIn entry > 0 → t.rowsOfSegment env entry = [] := by
      intro entry hentry hnone
      exact rowsOfSegment_dead hcounted hentry (hfresh _) (Nat.eq_zero_of_not_pos hnone)
    unfold Snapshot.liveSegments
    generalize t.current.manifest.segments = entries at hdead
    induction entries with
    | nil => rfl
    | cons entry entries ih =>
        have hrest := ih fun other hother => hdead other (List.mem_cons_of_mem _ hother)
        rw [List.flatMap_cons, List.filter_cons]
        by_cases hsome : t.current.liveRowsIn entry > 0
        · rw [if_pos (decide_eq_true hsome), List.flatMap_cons, hrest]
        · rw [if_neg (by simpa using hsome), hrest, hdead entry List.mem_cons_self hsome, List.nil_append]
  obtain ⟨found, hfound, hrows⟩ := hall t.current.liveSegments fun _ h => h
  refine ⟨_, bind_eq_ok.mpr ⟨found, hfound, rfl⟩, ?_⟩
  have hmemtable : rowsOf (t.current.memtable.flatMap fun batch => sliceBatches batch env.options.scanBatchRows) =
      t.writer.memtable.live.map Prod.snd := by
    rw [← htidy.shown, rowsOf, List.flatMap_assoc]
    exact List.flatMap_congr fun batch _ => rowsOf_sliceBatches batch _
  rw [rowsOf_append, hrows, hlive, hmemtable, rows, Multiset.coe_add]

/-- A segment that holds what it held, with the deletions it had, shows the rows it showed. -/
theorem rowsOfSegment_kept {entry entry' : SegmentEntry} {data : SegmentData ν} (hbody : entry'.body = entry.body)
    (h : entry.Stores t.writer.file.io.file data) (h' : entry.Stores t'.writer.file.io.file data)
    (hschema : t'.schema = t.schema) (hdeletes : t'.writer.deletes entry.segmentId = t.writer.deletes entry.segmentId) :
    t'.rowsOfSegment env entry' = t.rowsOfSegment env entry := by
  obtain ⟨hid, hdata, hmeta, -⟩ := SegmentEntry.eq_of_body hbody
  have hat : entry'.metaAt = entry.metaAt := by rw [SegmentEntry.metaAt, SegmentEntry.metaAt, hdata, hmeta]
  rw [rowsOfSegment, rowsOfSegment, hschema, hid, hdeletes]
  exact SegmentEntry.rowsIn_congr hdata hat (h'.read.trans h.read.symm) _

/-- A segment that was just written shows the rows it was built from. -/
theorem rowsOfSegment_new {entry : SegmentEntry} {data : SegmentData ν} (h : entry.Stores t.writer.file.io.file data)
    (hlayout : t.schema.layout = schemaLayout env t.schema.schema) (hcolumns : data.columns = t.schema.schema.fields.length)
    (hfingerprint : data.schemaFingerprint = layoutCurrent t.schema.layout)
    (hnone : t.writer.deletes entry.segmentId = none) : t.rowsOfSegment env entry = data.rows := by
  have haccepts : layoutAccepts t.schema.layout data.columns data.schemaFingerprint = true := by
    rw [hcolumns, hfingerprint, hlayout]
    exact layoutAccepts_current
  rw [rowsOfSegment, hnone]
  exact SegmentEntry.rowsIn_new (h.reads haccepts) hcolumns

theorem flatMap_filter_perm {α β : Type} (entries : List α) (p : α → Bool) (f : α → List β) :
    (entries.flatMap f).Perm ((entries.filter fun entry => ¬p entry).flatMap f ++ (entries.filter p).flatMap f) := by
  have hsplit := List.filter_append_perm p entries
  rw [← List.flatMap_append]
  refine (hsplit.symm.flatMap_right f).trans (List.Perm.flatMap_right f ?_)
  refine List.perm_append_comm.trans (List.Perm.append_right _ ?_)
  simp

/-- What a compaction read: the rows its segments showed, each of them opened under the schema in force. -/
theorem compactRead_live (htidy : t.Tidy) {ids : List SegmentId} {rewrite : Rewrite τ ν}
    (hok : t.compactRead env ids = .ok rewrite) :
    (rowsOf rewrite.live = rewrite.sources.flatMap fun entry =>
      entry.rowsIn env t.writer.file.io.file t.schema ((t.current.deletes entry.segmentId).getD ∅)) ∧
      ∀ entry ∈ rewrite.sources, ∃ data, segmentReader t.writer.file.io.file entry t.schema.layout = .ok data := by
  obtain ⟨-, -, read, hread, hlive, hsources⟩ := compactRead_ok hok
  have hone : ∀ r ∈ read, ∃ data, segmentReader t.writer.file.io.file r.2 t.schema.layout = .ok data ∧
      rowsOf r.1 = r.2.rowsIn env t.writer.file.io.file t.schema ((t.current.deletes r.2.segmentId).getD ∅) := by
    intro r hr
    obtain ⟨id, -, hid⟩ := mapM_mem hread hr
    unfold readSource at hid
    split at hid
    · cases hid
    · next entry hentry =>
        obtain ⟨batches, hbatches, hid⟩ := bind_eq_ok.mp hid
        obtain rfl := Except.ok.inj hid
        obtain ⟨data, hdata, hrows⟩ := readSegmentAs_rows hbatches
        rw [htidy.shownLayout] at hdata
        refine ⟨data, hdata, ?_⟩
        rw [SegmentEntry.rowsIn_eq hdata, ← htidy.shownSchema]
        exact hrows
  constructor
  · rw [hlive, hsources, rowsOf_flatten, List.map_map, List.flatMap_map, ← List.flatMap_def]
    refine List.flatMap_congr fun r hr => ?_
    obtain ⟨data, -, hrows⟩ := hone r hr
    exact hrows
  · intro entry hentry
    rw [hsources] at hentry
    obtain ⟨r, hr, rfl⟩ := List.mem_map.mp hentry
    obtain ⟨data, hdata, -⟩ := hone r hr
    exact ⟨data, hdata⟩

/-- A rewrite of segments that are listed as they were read, with the rows they show, puts what its groups hold in the place
of those rows. -/
theorem compactLocked_replaces [DecidableEq τ] (hhoused : t.Housed) (hall : t.All fun _ => True) (htidy : t.Tidy)
    (hlayout : t.schema.layout = schemaLayout env t.schema.schema) {rewrite : Rewrite τ ν} {rows : Nat}
    (hcurrent : rewrite.Current t.writer.file.committed.manifest)
    (hlive : rowsOf rewrite.live = rewrite.sources.flatMap (t.rowsOfSegment env)) (hfresh : ¬t.isStale rewrite)
    (hok : t.compactLocked env rewrite = .ok (rows, t')) : ∃ (groupRows : Nat) (groups : List (List (RecordBatch τ ν)))
      (kept : Multiset (Row ν)), rowGroups env rewrite.live groupRows t.schema.schema t.schema.clusterColumns = .ok groups ∧
        t.rows env = kept + rowsOf rewrite.live ∧ t'.rows env = kept + rowsOf groups.flatten := by
  obtain ⟨groups, pending, f, -, hgroups, hpending, hcommit, rfl⟩ := (compactLocked_ok hok).resolve_left fun h => hfresh h.1
  rw [Writer.forgetAll_eq, hcurrent.sources]
  have hbegin : Drafted t.minActiveTxn t.writer.file ⟨t.writer.file.io, t.writer.file.beginManifest⟩ := .begin hhoused.roomy
  obtain ⟨new, hwrote, hrows⟩ := writeSegments_wrote hbegin hhoused.min_le hpending
  have hdrafted := hbegin.edits (compactLocked_edits hhoused.numbered hcurrent hpending)
  obtain ⟨-, -, -, -, hsegments, -⟩ := TableFile.commit_stamps hcommit
  have hkept : (pending.manifest.retire rewrite.ids rewrite.sources).segments =
      (t.writer.file.committed.manifest.segments.filter fun entry => entry.segmentId ∉ rewrite.ids) ++ new.map Prod.fst := by
    refine hwrote.retired rewrite.sources fun id hid => ?_
    obtain ⟨source, hsource, rfl⟩ := List.mem_map.mp (hcurrent.sources ▸ hid)
    exact hhoused.numbered.below source (hcurrent.unchanged source hsource)
  generalize ht' : publish _ = t'
  have hfile : t'.writer.file = f := by rw [← ht']; rfl
  have hdeletes : t'.writer.deletes = fun id => if id ∈ rewrite.ids then none else t.writer.deletes id := by rw [← ht']; rfl
  have hschema : t'.schema = t.schema := by rw [← ht']; rfl
  have hmemtable : t'.writer.memtable = t.writer.memtable := by rw [← ht']; rfl
  have hcommitted : ∀ {entry : SegmentEntry} {data : SegmentData ν},
      entry ∈ (pending.manifest.retire rewrite.ids rewrite.sources).segments → entry.Stores pending.io.file data →
        entry.Stores t'.writer.file.io.file data := by
    intro entry data hentry hstores
    rw [hfile]
    exact hdrafted.commit_stores hhoused.min_le hcommit hentry hstores
  have hold : ∀ entry ∈ t.writer.file.committed.manifest.segments.filter fun entry => entry.segmentId ∉ rewrite.ids,
      t'.rowsOfSegment env entry = t.rowsOfSegment env entry := by
    intro entry hentry
    obtain ⟨hlisted, hid⟩ := List.mem_filter.mp hentry
    obtain ⟨data, hstores, -⟩ := hall entry hlisted
    refine rowsOfSegment_kept rfl hstores (hcommitted ?_ ?_) hschema ?_
    · rw [hkept]
      exact List.mem_append_left _ hentry
    · exact hbegin.stores hhoused.min_le hwrote.keeps hlisted hstores
    · rw [hdeletes]
      exact if_neg (of_decide_eq_true hid)
  have hnew : ∀ x ∈ new, t'.rowsOfSegment env x.1 = x.2.rows := by
    intro x hx
    obtain ⟨hcolumns, hfingerprint⟩ := hwrote.built x hx
    have hnone : t.writer.deletes x.1.segmentId = none := by
      cases hdeleted : t.writer.deletes x.1.segmentId with
      | none => rfl
      | some deleted => exact absurd (htidy.known _ deleted hdeleted) (Nat.not_lt.mpr (hwrote.fresh x hx))
    rw [← hschema] at hcolumns hfingerprint
    refine rowsOfSegment_new (hcommitted ?_ (hwrote.stores x hx)) (hschema ▸ hlayout) hcolumns hfingerprint ?_
    · rw [hkept]
      exact List.mem_append_right _ (List.mem_map_of_mem hx)
    · rw [hdeletes]
      simp [hnone]
  have hlisted : t'.writer.file.committed.manifest.segments.flatMap (t'.rowsOfSegment env) =
      (t.writer.file.committed.manifest.segments.filter fun entry => entry.segmentId ∉ rewrite.ids).flatMap
        (t.rowsOfSegment env) ++ rowsOf groups.flatten := by
    rw [hfile, hsegments, hkept, List.flatMap_append, List.flatMap_map, ← hrows]
    exact congrArg₂ _ (List.flatMap_congr hold) (List.flatMap_congr hnew)
  have hperm := hhoused.numbered.perm_of_sources (hcurrent.sources.symm ▸ hcurrent.nodup) hcurrent.unchanged
  rw [hcurrent.sources] at hperm
  have hsplit := flatMap_filter_perm t.writer.file.committed.manifest.segments (fun entry => entry.segmentId ∈ rewrite.ids)
    (t.rowsOfSegment env)
  simp only [decide_eq_true_eq] at hsplit
  have hshown : ((t.writer.file.committed.manifest.segments.filter fun entry => entry.segmentId ∈ rewrite.ids).flatMap
      (t.rowsOfSegment env)).Perm (rowsOf rewrite.live) := by
    rw [hlive]
    exact (hperm.flatMap_right _).symm
  refine ⟨_, groups, ↑((t.writer.file.committed.manifest.segments.filter fun entry => entry.segmentId ∉ rewrite.ids).flatMap
    (t.rowsOfSegment env)) + ↑(t.writer.memtable.live.map Prod.snd), hgroups, ?_, ?_⟩
  · rw [Table.rows, Multiset.coe_eq_coe.mpr (hsplit.trans (hshown.append_left _)), ← Multiset.coe_add, add_right_comm]
  · rw [Table.rows, hlisted, hmemtable, ← Multiset.coe_add, add_right_comm]

/-- A flush puts what its groups hold in the place of the rows of the memtable. -/
theorem flushLocked_replaces [DecidableEq τ] (hhoused : t.Housed) (hall : t.All fun _ => True) (htidy : t.Tidy)
    (hlayout : t.schema.layout = schemaLayout env t.schema.schema) {rows : Nat} (hok : t.flushLocked env = .ok (rows, t')) :
    ∃ (groupRows : Nat) (batches : List (RecordBatch τ ν)) (groups : List (List (RecordBatch τ ν))) (kept : Multiset (Row ν)),
      rowGroups env batches groupRows t.schema.schema t.schema.clusterColumns = .ok groups ∧
        rowsOf batches = t.writer.memtable.live.map Prod.snd ∧ t.rows env = kept + rowsOf batches ∧
          t'.rows env = kept + rowsOf groups.flatten := by
  rcases flushLocked_ok hok with ⟨hempty, rfl⟩ | ⟨pending, f, -, hpending, hcommit, rfl⟩
  · have hnone : t.writer.memtable.live = [] := by
      rw [Frozen.isEmpty, Bool.and_eq_true_iff] at hempty
      have hzero : t.writer.memtable.liveRows = 0 := beq_iff_eq.mp hempty.1
      rw [htidy.memtable.liveRows] at hzero
      exact List.length_eq_zero_iff.mp hzero
    refine ⟨0, [], [], ↑(t.writer.file.committed.manifest.segments.flatMap (t.rowsOfSegment env)), ?_, ?_, ?_, ?_⟩
    · unfold rowGroups
      split
      · rfl
      · exact if_pos (.inr rfl)
    · rw [hnone]
      rfl
    · rw [Table.rows, hnone]
      rfl
    · have hlast : t.writer.memtable.freeze.2.live = [] := Memtable.freeze_snd.2
      rw [Table.rows]
      dsimp only [frozenWriter]
      rw [hlast]
      rfl
  · obtain ⟨groups, hgroups, hwrite⟩ := bind_eq_ok.mp hpending
    obtain ⟨written, hwritten, hbitmaps⟩ := bind_eq_ok.mp hwrite
    have hstamped := hhoused.stamped env
    obtain ⟨new, hwrote, hrows⟩ := writeSegments_wrote hstamped hhoused.min_le hwritten
    have hdrafted := hstamped.edits (writeSegments_edits hwritten)
    have hedits := writeBitmaps_edits hbitmaps
    obtain ⟨-, -, -, -, hsegments, -⟩ := TableFile.commit_stamps hcommit
    have hbatches : rowsOf t.writer.memtable.batches = t.writer.memtable.live.map Prod.snd := Memtable.rowsOf_batches _
    generalize ht' : truncateStage _ _ = t'
    have hfile : t'.writer.file = f := by rw [← ht']; rfl
    have hdeletes : t'.writer.deletes = t.writer.deletes := by rw [← ht']; rfl
    have hschema : t'.schema = t.rotated.schema := by rw [← ht']; rfl
    have hmemtable : t'.writer.memtable.live = [] := by
      rw [← ht']
      exact Memtable.freeze_snd.2
    have hcommitted : ∀ {entry : SegmentEntry} {data : SegmentData ν}, entry ∈ written.manifest.segments →
        entry.Stores written.io.file data → entry.Stores t'.writer.file.io.file data := by
      intro entry data hentry hstores
      -- a bitmap may have changed the entry, and not what it points at
      have hbody := List.mem_map_of_mem (f := SegmentEntry.body) hentry
      rw [← (writeBitmaps_body hbitmaps).1] at hbody
      obtain ⟨entry', hentry', hbody⟩ := List.mem_map.mp hbody
      have hkept := (hdrafted.stores hhoused.min_le (hdrafted.edits_keeps hedits) hentry hstores).body hbody.symm
      rw [hfile]
      exact ((hdrafted.edits hedits).commit_stores hhoused.min_le hcommit hentry' hkept).body hbody
    have hold : ∀ entry ∈ t.writer.file.committed.manifest.segments, t'.rowsOfSegment env entry = t.rowsOfSegment env entry := by
      intro entry hentry
      obtain ⟨data, hstores, -⟩ := hall entry hentry
      refine rowsOfSegment_kept rfl hstores (hcommitted ?_ ?_) hschema (congrFun hdeletes _)
      · rw [hwrote.segments]
        exact List.mem_append_left _ hentry
      · exact hstamped.stores hhoused.min_le hwrote.keeps hentry hstores
    have hnew : ∀ x ∈ new, t'.rowsOfSegment env x.1 = x.2.rows := by
      intro x hx
      obtain ⟨hcolumns, hfingerprint⟩ := hwrote.built x hx
      have hnone : t.writer.deletes x.1.segmentId = none := by
        cases hdeleted : t.writer.deletes x.1.segmentId with
        | none => rfl
        | some deleted => exact absurd (htidy.known _ deleted hdeleted) (Nat.not_lt.mpr (hwrote.fresh x hx))
      rw [← hschema] at hcolumns hfingerprint
      refine rowsOfSegment_new (hcommitted ?_ (hwrote.stores x hx)) (hschema ▸ hlayout) hcolumns hfingerprint ?_
      · rw [hwrote.segments]
        exact List.mem_append_right _ (List.mem_map_of_mem hx)
      · rw [hdeletes]
        exact hnone
    have hbodies : ∀ entries : List SegmentEntry, entries.flatMap (t'.rowsOfSegment env) =
        (entries.map SegmentEntry.body).flatMap (t'.rowsOfSegment env) := by
      intro entries
      rw [List.flatMap_map]
      rfl
    have hlisted : t'.writer.file.committed.manifest.segments.flatMap (t'.rowsOfSegment env) =
        t.writer.file.committed.manifest.segments.flatMap (t.rowsOfSegment env) ++ rowsOf groups.flatten := by
      rw [hfile, hsegments, hbodies, (writeBitmaps_body hbitmaps).1, ← hbodies, hwrote.segments, List.flatMap_append,
        List.flatMap_map, ← hrows]
      exact congrArg₂ _ (List.flatMap_congr hold) (List.flatMap_congr hnew)
    refine ⟨_, t.writer.memtable.batches, groups, ↑(t.writer.file.committed.manifest.segments.flatMap (t.rowsOfSegment env)),
      hgroups, hbatches, ?_, ?_⟩
    · rw [Table.rows, hbatches]
    · rw [Table.rows, hlisted, hmemtable, List.map_nil, Multiset.coe_nil, add_zero, Multiset.coe_add]

/-- Whatever the order of the table, its groups hold the rows that were read. -/
theorem rows_compactLocked [DecidableEq τ] (hlaid : t.Laid env) (htidy : t.Tidy) {rewrite : Rewrite τ ν} {rows : Nat}
    (hcurrent : rewrite.Current t.writer.file.committed.manifest) (hfits : FitsCluster t.schema.clusterColumns rewrite.live)
    (hlive : rowsOf rewrite.live = rewrite.sources.flatMap (t.rowsOfSegment env))
    (hok : t.compactLocked env rewrite = .ok (rows, t')) : t'.rows env = t.rows env := by
  by_cases hstale : t.isStale rewrite
  · rcases compactLocked_ok hok with ⟨-, rfl⟩ | ⟨_, _, _, hfresh, -⟩
    · rfl
    · exact absurd hstale hfresh
  · obtain ⟨_, groups, kept, hgroups, hbefore, hafter⟩ :=
      compactLocked_replaces hlaid.housed (hlaid.accepted.mono fun _ _ => trivial) htidy hlaid.layout hcurrent hlive hstale hok
    rw [hbefore, hafter]
    exact congrArg (kept + ·) (Multiset.coe_eq_coe.mpr (rowsOf_rowGroups hfits hgroups))

end Table

end LocalTables
