import LocalTables.Table.Durable

/-! A flush that returns. Its segments hold the memtable, its bitmaps the deletions that were in the log alone, and its
commit moves the checkpoint past everything logged: nothing is left to replay. -/

namespace LocalTables

variable {τ ν : Type} {M : Media τ ν}

section Saved

variable {env : Env τ ν} {current : TableSchema τ} {minActive : Nat} {f f' : TableFile M} {p p' : Pending M}
  {deletes : SegmentId → Option (Finset Nat)} {dirty : List SegmentId}

/-- The bitmap of a listed segment reads the same while a commit is prepared. -/
theorem Drafted.loadDeletes (h : Drafted minActive f p) (hmin : minActive ≤ f.committed.metaPage.txnId)
    (hkeeps : p.Keeps minActive p') {entry : SegmentEntry} (hentry : entry ∈ p.manifest.segments) :
    LocalTables.loadDeletes p'.io.file entry = LocalTables.loadDeletes p.io.file entry := by
  apply loadDeletes_congr
  intro extent hextent k
  have hmem := Manifest.mem_refs.mpr ⟨entry, hentry, .inr hextent⟩
  exact (hkeeps _ (h.refs_guarded hmin hmem)).2 k

theorem Drafted.commit_loadDeletes (h : Drafted minActive f p) (hmin : minActive ≤ f.committed.metaPage.txnId)
    (hcommit : TableFile.commit { f with io := p.io } p.manifest = .ok f') {entry : SegmentEntry}
    (hentry : entry ∈ p.manifest.segments) :
    LocalTables.loadDeletes f'.io.file entry = LocalTables.loadDeletes p.io.file entry := by
  obtain ⟨ops, hissued, hspares⟩ := h.commit_issued hcommit
  apply loadDeletes_congr
  intro extent hextent k
  have hmem := Manifest.mem_refs.mpr ⟨entry, hentry, .inr hextent⟩
  have hguarded := h.refs_guarded hmin hmem
  have hused := List.mem_append_right f.manifests hmem
  have hlow := (h.accounted.bounds (.inl hused) (h.refsPos _ hmem)).1
  have hops := hspares _ hguarded (TableFile.page_apart_of_dataStart _ hlow)
  rw [hissued.2]
  exact (Media.applyAll_spared hops (h.guarded_inFile hguarded)).2 k

namespace Manifest.Saved

theorem writeSegment [DecidableEq τ] (h : p.manifest.Saved p.io.file deletes dirty) (hdrafted : Drafted minActive f p)
    (hmin : minActive ≤ f.committed.metaPage.txnId)
    (hknown : ∀ id rows, deletes id = some rows → id < p.manifest.nextSegmentId) {batches : List (RecordBatch τ ν)}
    (hok : Table.writeSegment env current minActive p batches = .ok p') :
    p'.manifest.Saved p'.io.file deletes dirty ∧ p.manifest.nextSegmentId ≤ p'.manifest.nextSegmentId := by
  have hkeeps := hdrafted.edits_keeps (writeSegment_edits hok)
  rcases writeSegment_ok hok with ⟨-, rfl⟩ | ⟨data, e, m, io, -, -, hwrite, rfl⟩
  · exact ⟨h, le_rfl⟩
  · obtain ⟨-, hsegments, hnext, -⟩ := writeAllocated_stamps isPowerOfTwo_segmentAlign hwrite
    refine ⟨?_, hnext ▸ Nat.le_succ m.nextSegmentId⟩
    intro entry hentry
    rcases List.mem_append.mp hentry with hold | hnew
    · rw [hsegments] at hold
      rw [hdrafted.loadDeletes hmin hkeeps hold]
      exact h entry hold
    · rw [List.mem_singleton.mp hnew]
      have hnone : deletes m.nextSegmentId = none := by
        by_contra hsome
        obtain ⟨rows, hrows⟩ := Option.ne_none_iff_exists'.mp hsome
        have hlt := hknown _ rows hrows
        rw [hnext] at hlt
        exact lt_irrefl _ hlt
      refine ⟨∅, rfl, Finset.empty_subset _, ?_⟩
      intro _
      simp [hnone]

theorem writeSegments [DecidableEq τ] (h : p.manifest.Saved p.io.file deletes dirty) (hdrafted : Drafted minActive f p)
    (hmin : minActive ≤ f.committed.metaPage.txnId)
    (hknown : ∀ id rows, deletes id = some rows → id < p.manifest.nextSegmentId) {groups : List (List (RecordBatch τ ν))}
    (hok : groups.foldlM (Table.writeSegment env current minActive) p = .ok p') :
    p'.manifest.Saved p'.io.file deletes dirty := by
  induction groups generalizing p with
  | nil =>
      obtain rfl := Except.ok.inj hok
      exact h
  | cons batches groups ih =>
      obtain ⟨q, hfirst, hrest⟩ := bind_eq_ok.mp hok
      obtain ⟨hsaved, hnext⟩ := h.writeSegment hdrafted hmin hknown hfirst
      apply ih hsaved (hdrafted.edits (writeSegment_edits hfirst)) _ hrest
      intro id rows hrows
      exact (hknown id rows hrows).trans_le hnext

theorem writeBitmap {id : SegmentId} (h : p.manifest.Saved p.io.file deletes (id :: dirty))
    (hdrafted : Drafted minActive f p) (hmin : minActive ≤ f.committed.metaPage.txnId) (hnumbered : p.manifest.Numbered)
    (hok : Table.writeBitmap deletes minActive p id = .ok p') : p'.manifest.Saved p'.io.file deletes dirty := by
  have hkeeps := hdrafted.edits_keeps (writeBitmap_edits hok)
  rcases writeBitmap_ok hok with ⟨hnothing, rfl⟩ | ⟨rows, entry, e, m, io, hrows, hentry, hwrite, rfl⟩
  · intro other hother
    obtain ⟨stored, hstored, hsub, hclean⟩ := h other hother
    refine ⟨stored, hstored, hsub, ?_⟩
    intro hnot
    by_cases hsame : other.segmentId = id
    · rcases hnothing with hnone | hmissing
      · -- whatever is in the file, nothing of the segment is deleted
        rw [hsame, hnone] at hsub ⊢
        exact (Finset.subset_empty.mp hsub).symm
      · rw [← hsame, hnumbered.segment_of_mem hother] at hmissing
        cases hmissing
    · apply hclean
      simp [hsame, hnot]
  · obtain ⟨-, hsegments, -, -⟩ := writeAllocated_stamps isPowerOfTwo_bufferAlign hwrite
    obtain ⟨-, hread⟩ := writeAllocated_read isPowerOfTwo_bufferAlign hwrite
    obtain ⟨front, back, hsplit, hid, -, hreplaced⟩ := Manifest.segments_replaceDeletes hentry hsegments e rows.card
    intro other hother
    rw [hreplaced] at hother
    by_cases hnew : other = { entry with deletes := some e, deletedCount := rows.card }
    · have hload : LocalTables.loadDeletes io.file other = .ok rows := by
        rw [hnew, LocalTables.loadDeletes]
        dsimp only
        rw [show M.read io.file e .deletes = .ok (.deletes rows) from hread]
        rfl
      have hall : (deletes other.segmentId).getD ∅ = rows := by
        rw [hnew, hid, hrows]
        rfl
      exact ⟨rows, hload, hall.ge, fun _ => hall⟩
    · have hmem : other ∈ front ++ back := by
        rcases List.mem_append.mp hother with hfront | hback
        · exact List.mem_append_left _ hfront
        · exact List.mem_append_right _ ((List.mem_cons.mp hback).resolve_left hnew)
      have hold : other ∈ p.manifest.segments := by
        rw [hsplit]
        exact ((List.sublist_cons_self _ _).append_left front).subset hmem
      have hne : other.segmentId ≠ id := by
        have hnodup := hnumbered.nodup
        rw [hsplit, List.map_append, List.map_cons, List.nodup_middle, ← List.map_append, List.nodup_cons] at hnodup
        intro hsame
        exact hnodup.1 (hid ▸ hsame ▸ List.mem_map_of_mem hmem)
      obtain ⟨stored, hstored, hsub, hclean⟩ := h other hold
      refine ⟨stored, (hdrafted.loadDeletes hmin hkeeps hold).trans hstored, hsub, ?_⟩
      intro hnot
      apply hclean
      simp [hne, hnot]

/-- Once the bitmaps of the dirty segments are written, no segment is dirty. -/
theorem writeBitmaps {ids : List SegmentId} (h : p.manifest.Saved p.io.file deletes ids)
    (hdrafted : Drafted minActive f p) (hmin : minActive ≤ f.committed.metaPage.txnId) (hnumbered : p.manifest.Numbered)
    (hok : ids.foldlM (Table.writeBitmap deletes minActive) p = .ok p') : p'.manifest.Saved p'.io.file deletes [] := by
  induction ids generalizing p with
  | nil =>
      obtain rfl := Except.ok.inj hok
      exact h
  | cons id ids ih =>
      obtain ⟨q, hfirst, hrest⟩ := bind_eq_ok.mp hok
      have hedits := writeBitmap_edits hfirst
      exact ih (h.writeBitmap hdrafted hmin hnumbered hfirst) (hdrafted.edits hedits) (hedits.numbered hnumbered) hrest

theorem commit (h : p.manifest.Saved p.io.file deletes dirty) (hdrafted : Drafted minActive f p)
    (hmin : minActive ≤ f.committed.metaPage.txnId)
    (hcommit : TableFile.commit { f with io := p.io } p.manifest = .ok f') :
    f'.committed.manifest.Saved f'.io.file deletes dirty := by
  obtain ⟨-, -, -, -, hsegments, -⟩ := TableFile.commit_stamps hcommit
  intro entry hentry
  rw [hsegments] at hentry
  rw [hdrafted.commit_loadDeletes hmin hcommit hentry]
  exact h entry hentry

theorem perm {file : M.File} {m : Manifest} {ids : List SegmentId} (h : m.Saved file deletes dirty) (hperm : ids.Perm dirty) :
    m.Saved file deletes ids := by
  intro entry hentry
  obtain ⟨rows, hrows, hsub, hclean⟩ := h entry hentry
  exact ⟨rows, hrows, hsub, fun hnot => hclean fun hmem => hnot (hperm.mem_iff.mpr hmem)⟩

end Manifest.Saved

end Saved

namespace Table

variable {env : Env τ ν} {t t' : Table M} {old fresh : List (WalRecord τ ν)}

section Flush

variable [DecidableEq τ]

/-- After a flush that commits, the bitmaps in the file are all the deletions there are. -/
theorem Saved.flushed (h : t.Saved) (hhoused : t.Housed) (htidy : t.Tidy) {pending : Pending M} {f : TableFile M}
    (hpending : t.rotated.writeStage env (t.frozen env) = .ok pending)
    (hcommit : TableFile.commit { t.writer.file with io := pending.io } pending.manifest = .ok f) :
    f.committed.manifest.Saved f.io.file t.writer.deletes [] := by
  obtain ⟨groups, -, hwrite⟩ := bind_eq_ok.mp hpending
  obtain ⟨written, hwritten, hbitmaps⟩ := bind_eq_ok.mp hwrite
  have hstamped := hhoused.stamped env
  have hsegments := writeSegments_edits hwritten
  have hstart : (t.rotated.flushManifest (t.frozen env)).Saved t.writer.file.io.file t.writer.deletes
      t.writer.dirtyDeletes := h
  have hfirst := hstart.writeSegments hstamped hhoused.min_le htidy.known hwritten
  have hnumbered : written.manifest.Numbered := hsegments.numbered (hhoused.numbered.congr rfl rfl)
  have hdrafted := hstamped.edits hsegments
  have hsecond := (hfirst.perm (env.drain_perm _)).writeBitmaps hdrafted hhoused.min_le hnumbered hbitmaps
  exact hsecond.commit (hdrafted.edits (writeBitmaps_edits hbitmaps)) hhoused.min_le hcommit

theorem Durable.flushed (h : t.Durable env old fresh) {pending : Pending M} {f : TableFile M} {rows : Nat}
    (hpending : t.rotated.writeStage env (t.frozen env) = .ok pending)
    (hcommit : TableFile.commit { t.writer.file with io := pending.io } pending.manifest = .ok f)
    (hok : t.flushLocked env = .ok (rows, t'))
    (ht : t' = (publish { t with writer := { t.rotated.writer with file := f } }).truncateStage t.writer.wal.rotate.1) :
    t'.Durable env [] [] := by
  have hsaved := h.saved.flushed h.whole.housed h.whole.tidy hpending hcommit
  obtain ⟨-, hstamps⟩ := flushed_checkpoint (t := t.rotated) hpending hcommit
  have hseqno : f.committed.manifest.nextSeqno = t.writer.memtable.nextSeqno := by
    have hmax := congrArg (fun stamps => stamps.2.1) hstamps
    exact hmax.trans (max_eq_left h.seqno)
  obtain ⟨-, -, hheader, -, -, -⟩ := TableFile.commit_stamps hcommit
  have hlogged := h.logged.flushed hpending hcommit ht
  apply h.stepped (.flush hok) (flushLocked_acts h.kept.synced hok) (flushLocked_schema hok)
    ((h.whole.flushLocked hok).fresh) hlogged
  · subst ht
    change (t.writer.wal.rotate.2.truncate t.writer.wal.rotate.1).Owned f.header.tableUuid
    rw [hheader]
    exact (h.owned.rotate).truncate _
  · subst ht
    exact hsaved
  · intro record hrecord
    cases hrecord
  · subst ht
    exact hseqno.le
  · intro w hw
    refine ⟨w, rfl, ?_⟩
    subst ht
    refine ⟨hw.manifest, ?_, ?_, ?_, ?_, ?_, hw.listed⟩
    · rw [hw.memtable]
      exact .new _ _
    · rw [hw.memtable]
      rfl
    · rw [hw.memtable]
      rfl
    · rw [hw.memtable]
      exact hseqno
    · rintro id ⟨entry, hentry, rfl⟩
      obtain ⟨stored, hstored, -, hclean⟩ := hsaved entry hentry
      have hread := Except.ok.inj ((hw.stored entry hentry).symm.trans hstored)
      exact hread.trans (hclean List.not_mem_nil).symm

omit [DecidableEq τ] in
theorem nothing_frozen (h : t.Tidy) (hempty : (t.frozen env).isEmpty) :
    t.writer.memtable.live = [] ∧ t.writer.dirtyDeletes = [] := by
  rw [Frozen.isEmpty, Bool.and_eq_true_iff] at hempty
  constructor
  · have hzero : t.writer.memtable.liveRows = 0 := beq_iff_eq.mp hempty.1
    rw [h.memtable.liveRows] at hzero
    exact List.length_eq_zero_iff.mp hzero
  · have hdrained : env.drain t.writer.dirtyDeletes = [] := List.isEmpty_iff.mp hempty.2
    have hperm := env.drain_perm t.writer.dirtyDeletes
    rw [hdrained] at hperm
    exact List.nil_perm.mp hperm

/-- A flush that finds nothing to write leaves the log as it is. -/
theorem Durable.idled (h : t.Durable env old fresh) (hempty : (t.frozen env).isEmpty) {rows : Nat}
    (hok : t.flushLocked env = .ok (rows, t')) (ht : t' = { t with writer := t.frozenWriter }) :
    t'.Durable env old fresh := by
  obtain ⟨hlive, hclean⟩ := nothing_frozen h.whole.tidy hempty
  have hfrozen : t'.Logged env old fresh ∧ t'.unflushed (old ++ fresh) = t.unflushed (old ++ fresh) := by
    subst ht
    exact h.logged.quiet rfl rfl rfl
  apply h.stepped (.flush hok) (flushLocked_acts h.kept.synced hok) (flushLocked_schema hok)
    ((h.whole.flushLocked hok).fresh) hfrozen.1
  · subst ht
    exact h.owned
  · subst ht
    have hsaved := h.saved
    unfold Saved at hsaved ⊢
    rw [hclean] at hsaved
    exact hsaved
  · rw [hfrozen.2]
    subst ht
    exact h.named
  · subst ht
    exact h.seqno
  · intro w hw
    rw [hfrozen.2]
    subst ht
    obtain ⟨u, hfold, hmirrors⟩ := h.replays w ⟨hw.manifest, hw.memtable, hw.stored, hw.listed⟩
    refine ⟨u, hfold, ?_⟩
    exact hmirrors.same (u := t.frozenWriter) rfl hlive.symm rfl fun _ _ => rfl

theorem Durable.flushLocked (h : t.Durable env old fresh) {rows : Nat} (hok : t.flushLocked env = .ok (rows, t')) :
    t'.Durable env old fresh ∨ t'.Durable env [] [] := by
  rcases flushLocked_ok hok with ⟨hempty, ht⟩ | ⟨pending, f, -, hpending, hcommit, ht⟩
  · exact .inl (h.idled hempty hok ht)
  · exact .inr (h.flushed hpending hcommit hok ht)

end Flush

end Table

end LocalTables
