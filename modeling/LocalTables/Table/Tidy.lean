import LocalTables.Table.Log

/-! What the writer keeps in memory. The memtable numbers its rows; the deletions are of rows of listed segments;
what readers are shown is what the writer holds. Every operation of the table keeps this, whatever the snapshots
and rewrites it was handed. -/

namespace LocalTables

variable {τ ν : Type} {M : Media τ ν}

/-- What an entry keeps for as long as its segment is listed: everything but its delete vector. -/
def SegmentEntry.body (entry : SegmentEntry) : SegmentEntry := { entry with deletes := none, deletedCount := 0 }

theorem SegmentEntry.eq_of_body {a b : SegmentEntry} (h : a.body = b.body) :
    a.segmentId = b.segmentId ∧ a.data = b.data ∧ a.metaFrame = b.metaFrame ∧ a.rowCount = b.rowCount := by
  have := SegmentEntry.mk.inj h
  exact ⟨this.1, this.2.1, this.2.2.1, this.2.2.2.1⟩

/-- The later manifest lists segments of the earlier one, as they were written, and new ones. -/
structure Manifest.Succeeds (m m' : Manifest) : Prop where
  next : m.nextSegmentId ≤ m'.nextSegmentId
  listed : ∀ entry ∈ m'.segments, (∃ old ∈ m.segments, old.body = entry.body) ∨ m.nextSegmentId ≤ entry.segmentId

namespace Manifest.Succeeds

variable {m m' m'' : Manifest}

theorem of_segments (hsegments : m'.segments = m.segments) (hnext : m'.nextSegmentId = m.nextSegmentId) :
    m.Succeeds m' :=
  ⟨hnext.ge, fun entry hentry => .inl ⟨entry, hsegments ▸ hentry, rfl⟩⟩

theorem trans (h : m.Succeeds m') (h' : m'.Succeeds m'') : m.Succeeds m'' := by
  refine ⟨h.next.trans h'.next, fun entry hentry => ?_⟩
  rcases h'.listed entry hentry with ⟨mid, hmid, hbody⟩ | hnew
  · rcases h.listed mid hmid with ⟨old, hold, hsame⟩ | hnew
    · exact .inl ⟨old, hold, hsame.trans hbody⟩
    · right
      rw [← (SegmentEntry.eq_of_body hbody).1]
      exact hnew
  · exact .inr (h.next.trans hnew)

theorem retire (m : Manifest) (ids : List SegmentId) (sources : List SegmentEntry) :
    m.Succeeds (m.retire ids sources) := by
  have hsegments : (m.retire ids sources).segments = m.segments.filter fun entry => entry.segmentId ∉ ids :=
    Manifest.segments_freeAll _
  have hnext : (m.retire ids sources).nextSegmentId = m.nextSegmentId := by rw [Manifest.retire, Manifest.freeAll_eq]
  refine ⟨hnext.ge, fun entry hentry => .inl ⟨entry, ?_, rfl⟩⟩
  rw [hsegments] at hentry
  exact List.mem_of_mem_filter hentry

end Manifest.Succeeds

theorem Manifest.body_replaceDeletes {m m' : Manifest} {id : SegmentId} {entry : SegmentEntry}
    (hentry : m.segment id = some entry) (hm' : m'.segments = m.segments) (e : Extent) (count : Nat) :
    (m'.replaceDeletes id entry.deletes e count).segments.map SegmentEntry.body = m.segments.map SegmentEntry.body := by
  obtain ⟨front, back, hsplit, -, -, hsegments⟩ := Manifest.segments_replaceDeletes hentry hm' e count
  rw [hsegments, hsplit, List.map_append, List.map_append, List.map_cons, List.map_cons]
  rfl

theorem Manifest.nextSegmentId_replaceDeletes (m : Manifest) (id : SegmentId) (previous : Option Extent) (e : Extent)
    (count : Nat) : (m.replaceDeletes id previous e count).nextSegmentId = m.nextSegmentId := by
  unfold Manifest.replaceDeletes
  split
  · exact Manifest.nextSegmentId_free _
  · rfl

section Writes

variable {env : Env τ ν} {current : TableSchema τ} {minActive : Nat} {p p' : Pending M}

/-- A segment write adds an entry for the rows of the group, or nothing for none. -/
theorem writeSegment_entry [DecidableEq τ] {batches : List (RecordBatch τ ν)}
    (h : Table.writeSegment env current minActive p batches = .ok p') :
    totalRows batches = 0 ∧ p' = p ∨ ∃ data metaFrame, p'.manifest.segments =
      p.manifest.segments ++ [⟨p.manifest.nextSegmentId, data, metaFrame, totalRows batches, 0, none⟩] ∧
      p'.manifest.nextSegmentId = p.manifest.nextSegmentId + 1 := by
  rcases writeSegment_ok h with ⟨hzero, rfl⟩ | ⟨built, e, m, io, -, hbuild, hwrite, rfl⟩
  · exact .inl ⟨hzero, rfl⟩
  · right
    obtain ⟨-, hsegments, hnext, -⟩ := writeAllocated_stamps isPowerOfTwo_segmentAlign hwrite
    have hrows : built.rows.length = totalRows batches := by
      unfold Table.buildSegment at hbuild
      dsimp only at hbuild
      split at hbuild
      · rw [← Except.ok.inj hbuild]
        exact length_rowsOf batches
      · cases hbuild
    refine ⟨e, ⟨e.offset + (M.metaExtent built).offset, (M.metaExtent built).len⟩, ?_, ?_⟩
    · dsimp only [Manifest.addSegment]
      rw [hsegments, hnext, hrows]
    · dsimp only [Manifest.addSegment]
      rw [hnext]

theorem writeSegment_succeeds [DecidableEq τ] {batches : List (RecordBatch τ ν)}
    (h : Table.writeSegment env current minActive p batches = .ok p') : p.manifest.Succeeds p'.manifest := by
  rcases writeSegment_entry h with ⟨-, rfl⟩ | ⟨data, metaFrame, hsegments, hnext⟩
  · exact .of_segments rfl rfl
  · refine ⟨hnext ▸ Nat.le_succ _, fun entry hentry => ?_⟩
    rw [hsegments, List.mem_append, List.mem_singleton] at hentry
    rcases hentry with hentry | rfl
    · exact .inl ⟨entry, hentry, rfl⟩
    · exact .inr le_rfl

theorem writeBitmap_body {deletes : SegmentId → Option (Finset Nat)} {id : SegmentId}
    (h : Table.writeBitmap deletes minActive p id = .ok p') :
    p'.manifest.segments.map SegmentEntry.body = p.manifest.segments.map SegmentEntry.body ∧
      p'.manifest.nextSegmentId = p.manifest.nextSegmentId := by
  rcases writeBitmap_ok h with ⟨-, rfl⟩ | ⟨rows, entry, e, m, io, -, hentry, hwrite, rfl⟩
  · exact ⟨rfl, rfl⟩
  · obtain ⟨-, hsegments, hnext, -⟩ := writeAllocated_stamps isPowerOfTwo_bufferAlign hwrite
    exact ⟨Manifest.body_replaceDeletes hentry hsegments e rows.card,
      (Manifest.nextSegmentId_replaceDeletes _ _ _ _ _).trans hnext⟩

theorem writeBitmaps_body {deletes : SegmentId → Option (Finset Nat)} {ids : List SegmentId}
    (h : ids.foldlM (Table.writeBitmap deletes minActive) p = .ok p') :
    p'.manifest.segments.map SegmentEntry.body = p.manifest.segments.map SegmentEntry.body ∧
      p'.manifest.nextSegmentId = p.manifest.nextSegmentId :=
  foldlM_ok (P := fun q : Pending M => q.manifest.segments.map SegmentEntry.body = p.manifest.segments.map
      SegmentEntry.body ∧ q.manifest.nextSegmentId = p.manifest.nextSegmentId)
    (fun _ _ _ hs hstep => ⟨(writeBitmap_body hstep).1.trans hs.1, (writeBitmap_body hstep).2.trans hs.2⟩) ⟨rfl, rfl⟩ h

theorem succeeds_of_body {m m' : Manifest}
    (hbody : m'.segments.map SegmentEntry.body = m.segments.map SegmentEntry.body)
    (hnext : m'.nextSegmentId = m.nextSegmentId) : m.Succeeds m' := by
  refine ⟨hnext.ge, fun entry hentry => .inl ?_⟩
  have hmem : entry.body ∈ m.segments.map SegmentEntry.body := hbody ▸ List.mem_map_of_mem hentry
  exact List.mem_map.mp hmem

theorem writeSegments_succeeds [DecidableEq τ] {groups : List (List (RecordBatch τ ν))}
    (h : groups.foldlM (Table.writeSegment env current minActive) p = .ok p') : p.manifest.Succeeds p'.manifest :=
  foldlM_ok (P := fun q : Pending M => p.manifest.Succeeds q.manifest)
    (fun _ _ _ hs hstep => hs.trans (writeSegment_succeeds hstep)) (.of_segments rfl rfl) h

theorem convertSegments_succeeds [DecidableEq τ] {before : TableSchema τ} {s : Snapshot τ ν}
    {sources : List SegmentEntry}
    (h : Table.convertSegments env (Table.writeSegment env current minActive) s sources before current p = .ok p') :
    p.manifest.Succeeds p'.manifest :=
  Table.convertSegments_ok (P := fun q : Pending M => p.manifest.Succeeds q.manifest)
    (fun _ _ _ hs hstep => hs.trans (writeSegment_succeeds hstep)) (.of_segments rfl rfl) h

end Writes

theorem TableFile.commit_lists {t t' : TableFile M} {m m₀ : Manifest} (hm : m₀.Succeeds m)
    (h : t.commit m = .ok t') : m₀.Succeeds t'.committed.manifest := by
  obtain ⟨-, -, -, -, hsegments, hnext⟩ := TableFile.commit_stamps h
  exact hm.trans (.of_segments hsegments hnext)

section Insert

variable {env : Env τ ν}

/-- Rows numbered one after the other. -/
def numberedFrom (seqno : Nat) (rows : List (Row ν)) : List (Nat × Row ν) :=
  rows.zipIdx.map fun entry => (seqno + entry.2, entry.1)

theorem numberedFrom_append (seqno : Nat) (front back : List (Row ν)) :
    numberedFrom seqno (front ++ back) = numberedFrom seqno front ++ numberedFrom (seqno + front.length) back := by
  rw [numberedFrom, List.zipIdx_append, List.map_append, numberedFrom, numberedFrom]
  congr 1
  rw [List.zipIdx_eq_map_add, List.map_map]
  refine List.map_congr_left fun entry _ => ?_
  simp only [Function.comp, Prod.mk.injEq, and_true]
  omega

/-- An insert that lands appends its rows, numbered from the next one on. -/
theorem planInserts_memtable (env : Env τ ν) {m : Memtable τ ν} (h : m.Wf) (lsn : Nat) (batches : List (RecordBatch τ ν)) :
    ((Table.planInserts lsn m.nextSeqno batches).2.foldl
      (fun memtable (seqno, batch) => memtable.insertAt env seqno batch) m).Wf ∧
    ((Table.planInserts lsn m.nextSeqno batches).2.foldl
      (fun memtable (seqno, batch) => memtable.insertAt env seqno batch) m).live =
        m.live ++ numberedFrom m.nextSeqno (rowsOf batches) ∧
    ((Table.planInserts lsn m.nextSeqno batches).2.foldl
      (fun memtable (seqno, batch) => memtable.insertAt env seqno batch) m).nextSeqno =
        m.nextSeqno + totalRows batches := by
  induction batches generalizing lsn m with
  | nil => exact ⟨h, by simp [Table.planInserts, numberedFrom], rfl⟩
  | cons batch batches ih =>
      rw [planInserts_cons]
      have htotal : totalRows (batch :: batches) = batch.numRows + totalRows batches := by
        rw [totalRows, List.map_cons, List.sum_cons, totalRows]
      split
      · next hnone =>
          have hrows : batch.rows = [] := List.length_eq_zero_iff.mp hnone
          rw [rowsOf_cons, hrows, List.nil_append, htotal, hnone, Nat.zero_add]
          exact ih h lsn
      · next hsome =>
          have hnext : (m.insertAt env m.nextSeqno batch).nextSeqno = m.nextSeqno + batch.numRows := by
            unfold Memtable.insertAt
            rw [if_neg hsome]
            exact Nat.max_eq_right (Nat.le_add_right _ _)
          obtain ⟨hwf, hlive, hseqno⟩ := ih (h.insertAt env le_rfl batch) (lsn + 1)
          rw [hnext] at hwf hlive hseqno
          dsimp only
          rw [List.foldl_cons]
          refine ⟨hwf, ?_, ?_⟩
          · rw [hlive, Memtable.live_insertAt h env le_rfl, rowsOf_cons, numberedFrom_append, List.append_assoc]
            rfl
          · rw [hseqno, htotal, Nat.add_assoc]

end Insert

section Plan

variable {w : Writer M} {segmentDeletions : List (SegmentId × List Nat)} {memtableSeqnos : List Nat}
  {planned : PlannedDeletes}

/-- The deletions of a segment once those named in one entry of a statement are added. -/
def Writer.deletedAfter (w : Writer M) (deletion : SegmentId × List Nat) : Finset Nat :=
  (w.deletes deletion.1).getD ∅ ∪ (deletion.2.filter fun position =>
    position < ((w.file.committed.manifest.segment deletion.1).map SegmentEntry.rowCount).getD 0).toFinset

/-- What a plan holds: the segments whose deletions grow, and the memtable rows not deleted yet. -/
theorem planDeletes_ok (h : planDeletes w segmentDeletions memtableSeqnos = .ok planned) :
    (∀ deletion ∈ segmentDeletions, ∃ entry, w.file.committed.manifest.segment deletion.1 = some entry) ∧
    planned.segments = (segmentDeletions.filter fun deletion =>
      (w.deletedAfter deletion).card > ((w.deletes deletion.1).getD ∅).card).map
        (fun deletion => (deletion.1, w.deletedAfter deletion)) ∧
    planned.memtable = memtableSeqnos.filter fun seqno => ¬w.memtable.isDeleted seqno := by
  obtain ⟨first, hfirst, h⟩ := bind_eq_ok.mp h
  have hfold : ∀ (deletions : List (SegmentId × List Nat)) (start first : PlannedDeletes),
      deletions.foldlM (planSegment w) start = .ok first →
      (∀ deletion ∈ deletions, ∃ entry, w.file.committed.manifest.segment deletion.1 = some entry) ∧
      first.segments = start.segments ++ (deletions.filter fun deletion =>
        (w.deletedAfter deletion).card > ((w.deletes deletion.1).getD ∅).card).map
          (fun deletion => (deletion.1, w.deletedAfter deletion)) := by
    intro deletions
    induction deletions with
    | nil =>
        intro start first h
        rw [← Except.ok.inj h]
        simp
    | cons deletion deletions ih =>
        intro start first h
        obtain ⟨mid, hmid, h⟩ := bind_eq_ok.mp h
        obtain ⟨hlisted, hsegments⟩ := ih mid first h
        unfold planSegment at hmid
        split at hmid
        · cases hmid
        · next entry hentry =>
            have hafter : w.deletedAfter deletion = (w.deletes deletion.1).getD ∅ ∪
                (deletion.2.filter fun position => position < entry.rowCount).toFinset := by
              rw [Writer.deletedAfter, hentry]
              rfl
            dsimp only at hmid
            rw [← hafter] at hmid
            refine ⟨fun other hother => ?_, ?_⟩
            · rcases List.mem_cons.mp hother with rfl | hother
              · exact ⟨entry, hentry⟩
              · exact hlisted other hother
            · rw [hsegments, List.filter_cons]
              split at hmid
              · next hgrows =>
                  rw [← Except.ok.inj hmid, if_pos (decide_eq_true hgrows)]
                  simp
              · next hsame =>
                  rw [← Except.ok.inj hmid, if_neg (by simpa using hsame)]
  obtain ⟨hlisted, hsegments⟩ := hfold segmentDeletions ⟨[], [], 0⟩ first hfirst
  rw [← Except.ok.inj h]
  exact ⟨hlisted, by simpa using hsegments, rfl⟩

theorem markDeletes_cons (deletes : SegmentId → Option (Finset Nat)) (segment : SegmentId × Finset Nat)
    (segments : List (SegmentId × Finset Nat)) : markDeletes deletes (segment :: segments) =
      markDeletes (Function.update deletes segment.1 (some segment.2)) segments := rfl

/-- Every deletion recorded was recorded before or is one of those added. -/
theorem markDeletes_some {deletes : SegmentId → Option (Finset Nat)} {segments : List (SegmentId × Finset Nat)}
    {id : SegmentId} {rows : Finset Nat} (h : markDeletes deletes segments id = some rows) :
    deletes id = some rows ∨ (id, rows) ∈ segments := by
  induction segments generalizing deletes with
  | nil => exact .inl h
  | cons segment segments ih =>
      rw [markDeletes_cons] at h
      rcases ih h with hmark | hmem
      · by_cases hid : id = segment.1
        · rw [hid, Function.update_self] at hmark
          right
          rw [hid, ← Option.some.inj hmark]
          exact List.mem_cons_self
        · rw [Function.update_of_ne hid] at hmark
          exact .inl hmark
      · exact .inr (List.mem_cons_of_mem _ hmem)

/-- A segment that is not added keeps its deletions; one added once gets them. -/
theorem markDeletes_of_notMem {deletes : SegmentId → Option (Finset Nat)} {segments : List (SegmentId × Finset Nat)}
    {id : SegmentId} (h : id ∉ segments.map Prod.fst) : markDeletes deletes segments id = deletes id := by
  induction segments generalizing deletes with
  | nil => rfl
  | cons segment segments ih =>
      rw [List.map_cons, List.mem_cons, not_or] at h
      rw [markDeletes_cons, ih h.2, Function.update_of_ne h.1]

theorem markDeletes_of_mem {deletes : SegmentId → Option (Finset Nat)} {segments : List (SegmentId × Finset Nat)}
    {id : SegmentId} {rows : Finset Nat} (hnodup : (segments.map Prod.fst).Nodup) (h : (id, rows) ∈ segments) :
    markDeletes deletes segments id = some rows := by
  induction segments generalizing deletes with
  | nil => cases h
  | cons segment segments ih =>
      rw [List.map_cons, List.nodup_cons] at hnodup
      rw [markDeletes_cons]
      rcases List.mem_cons.mp h with rfl | h
      · rw [markDeletes_of_notMem hnodup.1, Function.update_self]
      · exact ih hnodup.2 h

/-- With each segment named at most once, the rows deleted afterwards are those before and those named. -/
theorem mem_markDeletes (hnodup : (segmentDeletions.map Prod.fst).Nodup)
    (h : planDeletes w segmentDeletions memtableSeqnos = .ok planned) {id : SegmentId} {entry : SegmentEntry}
    (hentry : w.file.committed.manifest.segment id = some entry) {position : Nat} (hposition : position < entry.rowCount) :
    position ∈ (markDeletes w.deletes planned.segments id).getD ∅ ↔
      position ∈ (w.deletes id).getD ∅ ∨ ∃ positions, (id, positions) ∈ segmentDeletions ∧ position ∈ positions := by
  obtain ⟨-, hsegments, -⟩ := planDeletes_ok h
  have hids : (planned.segments.map Prod.fst).Nodup := by
    rw [hsegments, List.map_map]
    exact hnodup.sublist (List.filter_sublist.map _)
  have hafter : ∀ positions, position ∈ w.deletedAfter (id, positions) ↔
      position ∈ (w.deletes id).getD ∅ ∨ position ∈ positions := by
    intro positions
    rw [Writer.deletedAfter, hentry, Finset.mem_union, List.mem_toFinset, List.mem_filter]
    simp [hposition]
  by_cases hnamed : ∃ positions, (id, positions) ∈ segmentDeletions
  · obtain ⟨positions, hnamed⟩ := hnamed
    have honly : ∀ other, (id, other) ∈ segmentDeletions → other = positions := by
      intro other hother
      exact (Prod.mk.inj (List.inj_on_of_nodup_map hnodup hother hnamed rfl)).2
    have hgoal : position ∈ (markDeletes w.deletes planned.segments id).getD ∅ ↔
        position ∈ w.deletedAfter (id, positions) := by
      by_cases hgrows : (w.deletedAfter (id, positions)).card > ((w.deletes id).getD ∅).card
      · have hmem : (id, w.deletedAfter (id, positions)) ∈ planned.segments := by
          rw [hsegments]
          exact List.mem_map.mpr ⟨(id, positions), List.mem_filter.mpr ⟨hnamed, decide_eq_true hgrows⟩, rfl⟩
        rw [markDeletes_of_mem hids hmem, Option.getD_some]
      · have hsame : (w.deletes id).getD ∅ = w.deletedAfter (id, positions) :=
          Finset.eq_of_subset_of_card_le Finset.subset_union_left (Nat.le_of_not_lt hgrows)
        have hout : id ∉ planned.segments.map Prod.fst := by
          rw [hsegments, List.map_map]
          rintro hmem
          obtain ⟨deletion, hdeletion, heq⟩ := List.mem_map.mp hmem
          obtain ⟨hdeletion, hcard⟩ := List.mem_filter.mp hdeletion
          have hother : deletion = (id, positions) :=
            List.inj_on_of_nodup_map hnodup hdeletion hnamed heq
          rw [hother] at hcard
          exact hgrows (of_decide_eq_true hcard)
        rw [markDeletes_of_notMem hout, hsame]
    rw [hgoal, hafter]
    constructor
    · exact Or.imp_right fun hmem => ⟨positions, hnamed, hmem⟩
    · rintro (hold | ⟨other, hother, hmem⟩)
      · exact .inl hold
      · rw [honly other hother] at hmem
        exact .inr hmem
  · have hout : id ∉ planned.segments.map Prod.fst := by
      rw [hsegments, List.map_map]
      rintro hmem
      obtain ⟨⟨other, positions⟩, hdeletion, heq⟩ := List.mem_map.mp hmem
      dsimp only [Function.comp] at heq
      rw [heq] at hdeletion
      exact hnamed ⟨positions, List.mem_of_mem_filter hdeletion⟩
    rw [markDeletes_of_notMem hout]
    constructor
    · exact .inl
    · rintro (hold | ⟨positions, hmem, -⟩)
      · exact hold
      · exact absurd ⟨positions, hmem⟩ hnamed

end Plan

theorem Manifest.Numbered.retire {m : Manifest} (h : m.Numbered) (ids : List SegmentId) (sources : List SegmentEntry) :
    (m.retire ids sources).Numbered := by
  have hsegments : (m.retire ids sources).segments = m.segments.filter fun entry => entry.segmentId ∉ ids :=
    Manifest.segments_freeAll _
  have hnext : (m.retire ids sources).nextSegmentId = m.nextSegmentId := by rw [Manifest.retire, Manifest.freeAll_eq]
  refine ⟨?_, fun entry hentry => ?_⟩
  · rw [hsegments]
    exact h.nodup.sublist (List.filter_sublist.map _)
  · rw [hsegments] at hentry
    rw [hnext]
    exact h.below entry (List.mem_of_mem_filter hentry)

theorem TableFile.commit_numbered {t t' : TableFile M} {m : Manifest} (hm : m.Numbered) (h : t.commit m = .ok t') :
    t'.committed.manifest.Numbered := by
  obtain ⟨-, -, -, -, hsegments, hnext⟩ := TableFile.commit_stamps h
  exact hm.congr hsegments hnext

/-- A memtable that was emptied is in order and shows nothing. -/
theorem Memtable.freeze_snd {m : Memtable τ ν} : m.freeze.2.Wf ∧ m.freeze.2.live = [] :=
  ⟨⟨rfl, List.nodup_nil, by simp [freeze, entries], by simp [freeze]⟩, rfl⟩

namespace Table

variable {env : Env τ ν} {t t' : Table M}

/-- What the writer holds in memory agrees with the manifest and with what readers are shown. -/
structure Tidy (t : Table M) : Prop where
  memtable : t.writer.memtable.Wf
  shown : rowsOf t.current.memtable = t.writer.memtable.live.map Prod.snd
  numbered : t.writer.file.committed.manifest.Numbered
  known : ∀ id rows, t.writer.deletes id = some rows → id < t.writer.file.committed.manifest.nextSegmentId
  bounded : ∀ entry ∈ t.writer.file.committed.manifest.segments, ∀ rows, t.writer.deletes entry.segmentId = some rows →
    ∀ position ∈ rows, position < entry.rowCount
  schema : t.writer.file.schema = t.schema.schema
  shownSchema : t.current.schema = t.schema.schema
  shownLayout : t.current.layout = t.schema.layout

/-- The manifest a flush commits lists what was listed, and what it wrote. -/
theorem flushed_succeeds [DecidableEq τ] {pending : Pending M} (h : t.rotated.writeStage env (t.frozen env) = .ok pending) :
    t.writer.file.committed.manifest.Succeeds pending.manifest := by
  obtain ⟨groups, -, hwrite⟩ := bind_eq_ok.mp h
  obtain ⟨written, hwritten, hbitmaps⟩ := bind_eq_ok.mp hwrite
  obtain ⟨hbody, hnextId⟩ := writeBitmaps_body hbitmaps
  have hbegin : t.writer.file.committed.manifest.Succeeds (t.rotated.flushManifest (t.frozen env)) :=
    .of_segments rfl rfl
  exact (hbegin.trans (writeSegments_succeeds hwritten)).trans (succeeds_of_body hbody hnextId)

namespace Tidy

/-- An operation that forgets deletions and lists new segments. -/
theorem lists (h : t.Tidy) (hmemtable : t'.writer.memtable.Wf)
    (hshown : rowsOf t'.current.memtable = t'.writer.memtable.live.map Prod.snd)
    (hnumbered : t'.writer.file.committed.manifest.Numbered)
    (hnext : t.writer.file.committed.manifest.Succeeds t'.writer.file.committed.manifest)
    (hdeletes : ∀ id rows, t'.writer.deletes id = some rows → t.writer.deletes id = some rows)
    (hschema : t'.writer.file.schema = t'.schema.schema) (hshownSchema : t'.current.schema = t'.schema.schema)
    (hshownLayout : t'.current.layout = t'.schema.layout) : t'.Tidy := by
  refine ⟨hmemtable, hshown, hnumbered, fun id rows hrows => ?_, fun entry hentry rows hrows => ?_, hschema,
    hshownSchema, hshownLayout⟩
  · exact (h.known id rows (hdeletes id rows hrows)).trans_le hnext.next
  · have hbefore := hdeletes _ rows hrows
    rcases hnext.listed entry hentry with ⟨old, hold, hbody⟩ | hnew
    · obtain ⟨hid, -, -, hcount⟩ := SegmentEntry.eq_of_body hbody
      rw [← hcount]
      exact h.bounded old hold rows (hid ▸ hbefore)
    · exact absurd (h.known _ rows hbefore) (Nat.not_lt.mpr hnew)

theorem appendRows (h : t.Tidy) {batches : List (RecordBatch τ ν)} (hok : t.appendRows env batches = .ok t') :
    t'.Tidy := by
  obtain ⟨frames, wal, -, -, rfl⟩ := appendRows_ok hok
  refine h.lists (planInserts_memtable _ h.memtable _ batches).1 (Memtable.rowsOf_batches _) h.numbered (.of_segments rfl rfl)
    (fun _ _ hrows => hrows) h.schema h.schema rfl

/-- Deletions that were planned are of rows that are there. -/
theorem marks (h : t.Tidy) {segmentDeletions : List (SegmentId × List Nat)} {memtableSeqnos : List Nat}
    {planned : PlannedDeletes} (hplanned : planDeletes t.writer segmentDeletions memtableSeqnos = .ok planned)
    (hmemtable : t'.writer.memtable.Wf) (hshown : rowsOf t'.current.memtable = t'.writer.memtable.live.map Prod.snd)
    (hfile : t'.writer.file = t.writer.file) (hdeletes : t'.writer.deletes = markDeletes t.writer.deletes planned.segments)
    (hschema : t'.schema = t.schema) (hshownSchema : t'.current.schema = t.schema.schema)
    (hshownLayout : t'.current.layout = t.schema.layout) : t'.Tidy := by
  obtain ⟨hlisted, hsegments, -⟩ := planDeletes_ok hplanned
  have hnew : ∀ id rows, (id, rows) ∈ planned.segments → ∃ deletion ∈ segmentDeletions, deletion.1 = id ∧
      rows = t.writer.deletedAfter deletion := by
    intro id rows hmem
    rw [hsegments] at hmem
    obtain ⟨deletion, hdeletion, heq⟩ := List.mem_map.mp hmem
    obtain ⟨hid, hrows⟩ := Prod.mk.inj heq
    exact ⟨deletion, List.mem_of_mem_filter hdeletion, hid, hrows.symm⟩
  refine ⟨hmemtable, hshown, hfile ▸ h.numbered, fun id rows hrows => ?_, fun entry hentry rows hrows position hposition => ?_,
    by rw [hfile, hschema]; exact h.schema, by rw [hschema]; exact hshownSchema, by rw [hschema]; exact hshownLayout⟩
  · rw [hfile]
    rw [hdeletes] at hrows
    rcases markDeletes_some hrows with hold | hmem
    · exact h.known id rows hold
    · obtain ⟨deletion, hdeletion, rfl, -⟩ := hnew id rows hmem
      obtain ⟨entry, hentry⟩ := hlisted deletion hdeletion
      obtain ⟨hlisted, hid⟩ := Manifest.Numbered.mem_of_segment hentry
      rw [← hid]
      exact h.numbered.below entry hlisted
  · rw [hfile] at hentry
    rw [hdeletes] at hrows
    rcases markDeletes_some hrows with hold | hmem
    · exact h.bounded entry hentry rows hold position hposition
    · obtain ⟨deletion, hdeletion, hid, rfl⟩ := hnew _ rows hmem
      rw [Writer.deletedAfter, hid, h.numbered.segment_of_mem hentry, Finset.mem_union, List.mem_toFinset,
        List.mem_filter] at hposition
      rcases hposition with hold | ⟨-, hlt⟩
      · cases hbefore : t.writer.deletes entry.segmentId with
        | none =>
            rw [hbefore] at hold
            simp at hold
        | some before =>
            rw [hbefore] at hold
            exact h.bounded entry hentry before hbefore position hold
      · exact of_decide_eq_true hlt

theorem delete (h : t.Tidy) {segmentDeletions : List (SegmentId × List Nat)} {memtableSeqnos : List Nat} {deleted : Nat}
    (hok : t.delete env segmentDeletions memtableSeqnos = .ok (deleted, t')) : t'.Tidy := by
  rcases delete_ok hok with ⟨rfl, -⟩ | ⟨planned, frame, wal, hplanned, -, -, rfl⟩
  · exact h
  · rw [applyDeletes_snd]
    exact h.marks hplanned (h.memtable.delete _) (Memtable.rowsOf_batches _) rfl rfl rfl h.schema rfl

theorem replaceRows [DecidableEq τ] (h : t.Tidy) {segmentDeletions : List (SegmentId × List Nat)}
    {memtableSeqnos : List Nat} {replacements : List (RecordBatch τ ν)} {rows : Nat}
    (hok : t.replaceRows env segmentDeletions memtableSeqnos replacements = .ok (rows, t')) : t'.Tidy := by
  obtain ⟨planned, hplanned, ⟨rfl, -⟩ | ⟨merged, frame, wal, -, -, -, rfl⟩⟩ := replaceRows_ok hok
  · exact h
  · rw [applyDeletes_snd]
    refine h.marks hplanned ?_ (Memtable.rowsOf_batches _) rfl rfl rfl h.schema rfl
    have hdeleted := h.memtable.delete planned.memtable
    cases merged with
    | none => exact hdeleted
    | some batch =>
        refine hdeleted.insertAt env ?_ batch
        rw [Memtable.delete_snd]

theorem flushLocked [DecidableEq τ] (h : t.Tidy) {rows : Nat} (hok : t.flushLocked env = .ok (rows, t')) : t'.Tidy := by
  rcases flushLocked_ok hok with ⟨hempty, rfl⟩ | ⟨pending, f, -, hpending, hcommit, rfl⟩
  · refine h.lists Memtable.freeze_snd.1 ?_ h.numbered (.of_segments rfl rfl) (fun _ _ hrows => hrows) h.schema
      h.shownSchema h.shownLayout
    -- nothing was live, so what readers are shown is still right
    have hnone : t.writer.memtable.live = [] := by
      rw [Frozen.isEmpty, Bool.and_eq_true_iff] at hempty
      have hzero : t.writer.memtable.liveRows = 0 := beq_iff_eq.mp hempty.1
      rw [h.memtable.liveRows] at hzero
      exact List.length_eq_zero_iff.mp hzero
    change rowsOf t.current.memtable = _
    rw [h.shown, hnone]
    rfl
  · have hlists := flushed_succeeds hpending
    have hnumbered : pending.manifest.Numbered :=
      (writeStage_edits hpending).numbered (h.numbered.congr rfl rfl)
    refine h.lists Memtable.freeze_snd.1 (Memtable.rowsOf_batches _) (TableFile.commit_numbered hnumbered hcommit)
      (TableFile.commit_lists hlists hcommit) (fun _ _ hrows => hrows) ?_ ?_ rfl
    · exact (TableFile.commit_stamps hcommit).2.2.2.1.trans h.schema
    · exact (TableFile.commit_stamps hcommit).2.2.2.1.trans h.schema

theorem compactLocked [DecidableEq τ] (h : t.Tidy) {rewrite : Rewrite τ ν} {rows : Nat}
    (hok : t.compactLocked env rewrite = .ok (rows, t')) : t'.Tidy := by
  rcases compactLocked_ok hok with ⟨-, rfl⟩ | ⟨groups, pending, f, -, -, hpending, hcommit, rfl⟩
  · exact h
  · have hbegin : t.writer.file.committed.manifest.Succeeds t.writer.file.beginManifest := .of_segments rfl rfl
    have hlists := (hbegin.trans (writeSegments_succeeds hpending)).trans (.retire _ rewrite.ids rewrite.sources)
    have hnumbered : pending.manifest.Numbered := (writeSegments_edits hpending).numbered (h.numbered.congr rfl rfl)
    have hschema : f.schema = t.schema.schema := (TableFile.commit_stamps hcommit).2.2.2.1.trans h.schema
    rw [Writer.forgetAll_eq]
    refine h.lists h.memtable (Memtable.rowsOf_batches _) (TableFile.commit_numbered (hnumbered.retire _ _) hcommit)
      (TableFile.commit_lists hlists hcommit) (fun id rows hrows => ?_) hschema hschema rfl
    dsimp only [publish] at hrows
    split at hrows
    · cases hrows
    · exact hrows

theorem deleteSegments (h : t.Tidy) {segmentIds : List SegmentId} {deleted : Nat}
    (hok : t.deleteSegments segmentIds = .ok (deleted, t')) : t'.Tidy := by
  rcases deleteSegments_ok hok with ⟨-, rfl⟩ | ⟨-, f, hcommit, rfl⟩
  · rw [Writer.forgetAll_eq]
    refine h.lists h.memtable h.shown h.numbered (.of_segments rfl rfl) (fun id rows hrows => ?_) h.schema h.shownSchema
      h.shownLayout
    dsimp only at hrows
    split at hrows
    · cases hrows
    · exact hrows
  · have hbegin : t.writer.file.committed.manifest.Succeeds t.writer.file.beginManifest := .of_segments rfl rfl
    have hlists := hbegin.trans (.retire _ segmentIds (t.dropped segmentIds))
    have hnumbered : t.writer.file.beginManifest.Numbered := h.numbered.congr rfl rfl
    have hschema : f.schema = t.schema.schema := (TableFile.commit_stamps hcommit).2.2.2.1.trans h.schema
    rw [Writer.forgetAll_eq]
    refine h.lists h.memtable (Memtable.rowsOf_batches _) (TableFile.commit_numbered (hnumbered.retire _ _) hcommit)
      (TableFile.commit_lists hlists hcommit) (fun id rows hrows => ?_) hschema hschema rfl
    dsimp only [publish] at hrows
    split at hrows
    · cases hrows
    · exact hrows

theorem setSchemaLocked [DecidableEq τ] (h : t.Tidy) {before after : TableSchema τ} {rewrite : Bool} {s : Snapshot τ ν}
    (hok : t.setSchemaLocked env before after rewrite s = .ok t') : t'.Tidy := by
  obtain ⟨t₁, hchange, rfl⟩ := setSchemaLocked_ok hok
  obtain ⟨-, extent, file, -, ⟨-, f, hcommit, rfl⟩ | ⟨-, pending, f, hpending, hcommit, rfl⟩⟩ := commitSchema_ok hchange
  · have hlists : t.writer.file.committed.manifest.Succeeds { t.writer.file.beginManifest with schema := extent } :=
      .of_segments rfl rfl
    have hnumbered : Manifest.Numbered { t.writer.file.beginManifest with schema := extent } := h.numbered.congr rfl rfl
    have hcommitted := TableFile.commit_numbered hnumbered hcommit
    have hlisted := TableFile.commit_lists hlists hcommit
    exact h.lists (.new _ _) (Memtable.rowsOf_batches _) hcommitted hlisted (fun _ _ hrows => hrows) rfl rfl rfl
  · have hbegin : t.writer.file.committed.manifest.Succeeds { t.writer.file.beginManifest with schema := extent } :=
      .of_segments rfl rfl
    have hnumbered : pending.manifest.Numbered := (convertSegments_edits hpending).numbered (h.numbered.congr rfl rfl)
    have hcommitted := TableFile.commit_numbered (hnumbered.retire _ _) hcommit
    have hlisted := TableFile.commit_lists ((hbegin.trans (convertSegments_succeeds hpending)).trans (.retire _ _ _)) hcommit
    rw [Writer.forgetAll_eq]
    refine h.lists (.new _ _) (Memtable.rowsOf_batches _) hcommitted hlisted (fun id rows hrows => ?_) rfl rfl rfl
    dsimp only [publish, adoptSchema] at hrows
    split at hrows
    · cases hrows
    · exact hrows

theorem created {file : TableFile M} {kind : TableKind} {seed : MetaPage} (hfresh : file.Fresh kind seed)
    {current : TableSchema τ} (hcurrent : TableSchema.new env file.schema = .ok current) :
    (freshTable file current).Tidy := by
  obtain ⟨columns, -, hnew⟩ := bind_eq_ok.mp hcurrent
  have hschema : file.schema = current.schema := by rw [← Except.ok.inj hnew]
  refine ⟨.new _ _, Memtable.rowsOf_batches _, ?_, by simp [freshTable], by simp [freshTable], hschema, hschema, rfl⟩
  change file.committed.manifest.Numbered
  rw [hfresh.manifest]
  exact ⟨List.nodup_nil, by simp [Manifest.empty]⟩

end Tidy

theorem Locked.tidy [DecidableEq τ] (hstep : Locked env t t') (h : t.Tidy) : t'.Tidy := by
  cases hstep with
  | insert batches hok =>
      rcases (insertLocked_ok hok).2 with ⟨-, rfl⟩ | ⟨-, -, happend⟩
      · exact h
      · exact h.appendRows happend
  | delete segmentDeletions memtableSeqnos hok => exact h.delete hok
  | update segmentDeletions memtableSeqnos replacements hok =>
      rcases updateLocked_ok hok with ⟨rfl, -⟩ | ⟨-, hreplace⟩
      · exact h
      · exact h.replaceRows hreplace
  | flush hok => exact h.flushLocked hok
  | compact ids hids hread hok => exact h.compactLocked hok
  | deleteSegments segmentIds hok => exact h.deleteSegments hok
  | setSchema before after s hok => exact h.setSchemaLocked hok
  | pin => exact ⟨h.memtable, h.shown, h.numbered, h.known, h.bounded, h.schema, h.shownSchema, h.shownLayout⟩
  | unpin index => exact ⟨h.memtable, h.shown, h.numbered, h.known, h.bounded, h.schema, h.shownSchema, h.shownLayout⟩

theorem Reachable.tidy [DecidableEq τ] (hrun : Reachable env t) : t.Tidy := by
  induction hrun with
  | create schema fingerprint newTableUuid h =>
      obtain ⟨file, seed, current, -, hfresh, hcurrent, rfl⟩ := create_ok h
      exact .created hfresh hcurrent
  | step _ hstep ih => exact hstep.tidy ih

end Table

end LocalTables
