import LocalTables.Table.Isolation

/-! What the logs hold. An insert, a delete or an update appends its records; a flush that commits moves the
checkpoint past everything logged and empties the logs; nothing else touches them. The records above the
checkpoint are the ones a reopen replays. -/

namespace LocalTables

variable {τ ν : Type} {M : Media τ ν}

/-- The batch a record carries, if it carries one. -/
def WalRecord.batch? : WalRecord τ ν → Option (BatchData τ ν)
  | insert _ _ batch => some batch
  | delete _ _ _ => none
  | update _ _ _ _ batch => some batch

section Plan

theorem planInserts_cons (lsn seqno : Nat) (batch : RecordBatch τ ν) (batches : List (RecordBatch τ ν)) :
    Table.planInserts lsn seqno (batch :: batches) =
      if batch.numRows = 0 then Table.planInserts lsn seqno batches
      else (.insert lsn seqno (encodeBatch batch) :: (Table.planInserts (lsn + 1) (seqno + batch.numRows) batches).1,
        (seqno, batch) :: (Table.planInserts (lsn + 1) (seqno + batch.numRows) batches).2) := by
  rw [Table.planInserts]

/-- The records of an insert are numbered one after the other. -/
theorem planInserts_lsn (lsn seqno : Nat) (batches : List (RecordBatch τ ν)) :
    Rising (Table.planInserts lsn seqno batches).1 ∧ ∀ record ∈ (Table.planInserts lsn seqno batches).1,
      lsn ≤ record.lsn ∧ record.lsn < lsn + (Table.planInserts lsn seqno batches).1.length := by
  induction batches generalizing lsn seqno with
  | nil => exact ⟨List.Pairwise.nil, by simp [Table.planInserts]⟩
  | cons batch batches ih =>
      rw [planInserts_cons]
      split
      · exact ih lsn seqno
      · obtain ⟨hrising, hbounds⟩ := ih (lsn + 1) (seqno + batch.numRows)
        dsimp only
        refine ⟨List.pairwise_cons.mpr ⟨fun record hrecord => (hbounds record hrecord).1, hrising⟩, ?_⟩
        intro record hrecord
        rw [List.length_cons]
        rcases List.mem_cons.mp hrecord with rfl | hrecord
        · exact ⟨le_rfl, Nat.lt_add_of_pos_right (Nat.succ_pos _)⟩
        · have := hbounds record hrecord
          exact ⟨Nat.le_of_succ_le this.1, this.2.trans_eq (Nat.succ_add_eq_add_succ _ _)⟩

/-- Each record of an insert carries one of its batches. -/
theorem planInserts_batch {lsn seqno : Nat} {batches : List (RecordBatch τ ν)} {record : WalRecord τ ν}
    (h : record ∈ (Table.planInserts lsn seqno batches).1) :
    ∃ batch ∈ batches, record.batch? = some (encodeBatch batch) := by
  induction batches generalizing lsn seqno with
  | nil => cases h
  | cons batch batches ih =>
      rw [planInserts_cons] at h
      split at h
      · obtain ⟨found, hfound, heq⟩ := ih h
        exact ⟨found, by simp [hfound], heq⟩
      · rcases List.mem_cons.mp h with rfl | h
        · exact ⟨batch, by simp, rfl⟩
        · obtain ⟨found, hfound, heq⟩ := ih h
          exact ⟨found, by simp [hfound], heq⟩

end Plan

section Stamps

/-- The manifest's stamps: what a commit records besides the segments and the space. -/
def Manifest.stamps (m : Manifest) : Lsn × Nat × Extent := (m.checkpointLsn, m.nextSeqno, m.schema)

theorem Manifest.stamps_free (m : Manifest) (e : Extent) : (m.free e).stamps = m.stamps := by
  unfold Manifest.free
  split <;> rfl

theorem Manifest.stamps_retire (m : Manifest) (ids : List SegmentId) (sources : List SegmentEntry) :
    (m.retire ids sources).stamps = m.stamps := by
  rw [Manifest.retire, Manifest.freeAll_eq]
  rfl

theorem Manifest.stamps_replaceDeletes (m : Manifest) (id : SegmentId) (previous : Option Extent) (e : Extent)
    (count : Nat) : (m.replaceDeletes id previous e count).stamps = m.stamps := by
  unfold Manifest.replaceDeletes
  cases previous with
  | none => rfl
  | some previous =>
      change (m.free previous).stamps = _
      exact m.stamps_free previous

theorem writeAllocated_stamps {io io' : FileIo M} {m m' : Manifest} {blob : Blob τ ν} {align minActiveTxn : Nat}
    {e : Extent} (halign : align.isPowerOfTwo) (h : writeAllocated io m blob align minActiveTxn = .ok (e, m', io')) :
    m'.stamps = m.stamps ∧ m'.segments = m.segments ∧ m'.nextSegmentId = m.nextSegmentId ∧ m'.txnId = m.txnId := by
  obtain ⟨-, hpos, halloc, -⟩ := writeAllocated_ok halign h
  obtain ⟨frees, fileLen, hm⟩ := allocate_segments m minActiveTxn hpos halign
  rw [halloc] at hm
  dsimp only at hm
  rw [hm]
  exact ⟨rfl, rfl, rfl, rfl⟩

variable {env : Env τ ν} {current : TableSchema τ} {minActive : Nat} {p p' : Pending M}

theorem writeSegment_stamps [DecidableEq τ] {batches : List (RecordBatch τ ν)}
    (h : Table.writeSegment env current minActive p batches = .ok p') : p'.manifest.stamps = p.manifest.stamps := by
  rcases writeSegment_ok h with ⟨-, rfl⟩ | ⟨data, e, m, io, -, -, hwrite, rfl⟩
  · rfl
  · exact (writeAllocated_stamps isPowerOfTwo_segmentAlign hwrite).1

theorem writeBitmap_stamps {deletes : SegmentId → Option (Finset Nat)} {id : SegmentId}
    (h : Table.writeBitmap deletes minActive p id = .ok p') : p'.manifest.stamps = p.manifest.stamps := by
  rcases writeBitmap_ok h with ⟨-, rfl⟩ | ⟨rows, entry, e, m, io, -, -, hwrite, rfl⟩
  · rfl
  · exact (Manifest.stamps_replaceDeletes _ _ _ _ _).trans (writeAllocated_stamps isPowerOfTwo_bufferAlign hwrite).1

theorem writeSegments_stamps [DecidableEq τ] {groups : List (List (RecordBatch τ ν))}
    (h : groups.foldlM (Table.writeSegment env current minActive) p = .ok p') : p'.manifest.stamps = p.manifest.stamps :=
  foldlM_ok (P := fun q : Pending M => q.manifest.stamps = p.manifest.stamps)
    (fun _ _ _ hs hstep => (writeSegment_stamps hstep).trans hs) rfl h

theorem writeBitmaps_stamps {deletes : SegmentId → Option (Finset Nat)} {ids : List SegmentId}
    (h : ids.foldlM (Table.writeBitmap deletes minActive) p = .ok p') : p'.manifest.stamps = p.manifest.stamps :=
  foldlM_ok (P := fun q : Pending M => q.manifest.stamps = p.manifest.stamps)
    (fun _ _ _ hs hstep => (writeBitmap_stamps hstep).trans hs) rfl h

theorem convertSegments_stamps [DecidableEq τ] {before : TableSchema τ} {s : Snapshot τ ν} {sources : List SegmentEntry}
    (h : Table.convertSegments env (Table.writeSegment env current minActive) s sources before current p = .ok p') :
    p'.manifest.stamps = p.manifest.stamps :=
  Table.convertSegments_ok (P := fun q : Pending M => q.manifest.stamps = p.manifest.stamps)
    (fun _ _ _ hs hstep => (writeSegment_stamps hstep).trans hs) rfl h

theorem TableFile.commit_stamps {t t' : TableFile M} {m : Manifest} (h : t.commit m = .ok t') :
    t'.committed.manifest.stamps = m.stamps ∧ t'.committed.metaPage.checkpointLsn = m.checkpointLsn ∧
      t'.header = t.header ∧ t'.schema = t.schema ∧ t'.committed.manifest.segments = m.segments ∧
      t'.committed.manifest.nextSegmentId = m.nextSegmentId := by
  obtain ⟨e, manifest, io, hwrite, -, rfl⟩ := commit_ok h
  obtain ⟨-, -, -, rfl, -⟩ := writeManifest_ok hwrite
  have hstamps : (t.stamped m).stamps = m.stamps := Manifest.stamps_free _ _
  refine ⟨hstamps, congrArg Prod.fst hstamps, rfl, rfl, ?_, ?_⟩
  · exact Manifest.segments_free _
  · exact Manifest.nextSegmentId_free _

end Stamps

namespace Table

variable {env : Env τ ν} {t t' : Table M}

/-- The checkpoint in force. -/
def checkpoint (t : Table M) : Lsn := t.writer.file.committed.metaPage.checkpointLsn

/-- The logs hold `old` and `fresh`, all of it numbered below the next record. -/
structure Logged (env : Env τ ν) (t : Table M) (old fresh : List (WalRecord τ ν)) : Prop where
  holds : t.writer.wal.Holds env old fresh
  below : ∀ record ∈ old ++ fresh, record.lsn < t.writer.nextLsn
  checkpoint : t.checkpoint < t.writer.nextLsn
  stamped : t.writer.file.committed.manifest.checkpointLsn = t.checkpoint

/-- The records a reopen replays. -/
def unflushed (t : Table M) (records : List (WalRecord τ ν)) : List (WalRecord τ ν) :=
  records.filter fun record => record.lsn > t.checkpoint

theorem unflushed_append (t : Table M) (front back : List (WalRecord τ ν)) :
    t.unflushed (front ++ back) = t.unflushed front ++ t.unflushed back := List.filter_append ..

namespace Logged

variable {old fresh : List (WalRecord τ ν)}

theorem quiet (h : t.Logged env old fresh) (hwal : t'.writer.wal = t.writer.wal)
    (hlsn : t'.writer.nextLsn = t.writer.nextLsn) (hfile : t'.writer.file.committed = t.writer.file.committed) :
    t'.Logged env old fresh ∧ t'.unflushed (old ++ fresh) = t.unflushed (old ++ fresh) := by
  have hcheckpoint : t'.checkpoint = t.checkpoint := by rw [Table.checkpoint, hfile, Table.checkpoint]
  refine ⟨⟨hwal ▸ h.holds, hlsn ▸ h.below, ?_, ?_⟩, ?_⟩
  · rw [hlsn, hcheckpoint]
    exact h.checkpoint
  · rw [hfile, hcheckpoint]
    exact h.stamped
  · rw [unflushed, unflushed, hcheckpoint]

/-- A commit that leaves the logs and the checkpoint alone. -/
theorem commits (h : t.Logged env old fresh) {io : FileIo M} {m : Manifest} {f : TableFile M}
    (hwal : t'.writer.wal = t.writer.wal) (hlsn : t'.writer.nextLsn = t.writer.nextLsn)
    (hm : m.checkpointLsn = t.writer.file.committed.manifest.checkpointLsn)
    (hcommit : TableFile.commit { t.writer.file with io := io } m = .ok f)
    (hfile : t'.writer.file.committed = f.committed) :
    t'.Logged env old fresh ∧ t'.unflushed (old ++ fresh) = t.unflushed (old ++ fresh) := by
  obtain ⟨hstamps, hpage, -⟩ := TableFile.commit_stamps hcommit
  have hcheckpoint : t'.checkpoint = t.checkpoint := by
    rw [Table.checkpoint, hfile, hpage, hm]
    exact h.stamped
  refine ⟨⟨hwal ▸ h.holds, hlsn ▸ h.below, ?_, ?_⟩, ?_⟩
  · rw [hlsn, hcheckpoint]
    exact h.checkpoint
  · rw [Table.checkpoint, hfile, hpage]
    exact congrArg Prod.fst hstamps
  · rw [unflushed, unflushed, hcheckpoint]

/-- An operation that appends records, numbered from the next one on. -/
theorem append (h : t.Logged env old fresh) {more : List (WalRecord τ ν)} {frames : List Bytes} (hrising : Rising more)
    (hbounds : ∀ record ∈ more, t.writer.nextLsn ≤ record.lsn ∧ record.lsn < t'.writer.nextLsn)
    (hframes : more.mapM (encodeRecord env) = .ok frames)
    (hwal : t.writer.wal.appendGroup frames = .ok t'.writer.wal) (hlsn : t.writer.nextLsn ≤ t'.writer.nextLsn)
    (hfile : t'.writer.file.committed = t.writer.file.committed) :
    t'.Logged env old (fresh ++ more) ∧
      t'.unflushed (old ++ (fresh ++ more)) = t.unflushed (old ++ fresh) ++ more := by
  have hall : Rising (old ++ (fresh ++ more)) := by
    rw [← List.append_assoc]
    refine List.pairwise_append.mpr ⟨h.holds.rising, hrising, fun r hr s hs => ?_⟩
    exact (h.below r hr).trans_le (hbounds s hs).1
  have hcheckpoint : t'.checkpoint = t.checkpoint := by rw [Table.checkpoint, hfile, Table.checkpoint]
  refine ⟨⟨h.holds.appendGroup hframes hall hwal, fun record hrecord => ?_, ?_, ?_⟩, ?_⟩
  · rw [← List.append_assoc, List.mem_append] at hrecord
    rcases hrecord with hrecord | hrecord
    · exact (h.below record hrecord).trans_le hlsn
    · exact (hbounds record hrecord).2
  · rw [hcheckpoint]
    exact h.checkpoint.trans_le hlsn
  · rw [hfile, hcheckpoint]
    exact h.stamped
  · rw [← List.append_assoc, unflushed_append, unflushed, unflushed, unflushed, hcheckpoint]
    congr 1
    refine List.filter_eq_self.mpr fun record hrecord => ?_
    exact decide_eq_true (h.checkpoint.trans_le (hbounds record hrecord).1)

theorem flush (h : t.Logged env old fresh)
    (hwal : t'.writer.wal = t.writer.wal.rotate.2.truncate t.writer.wal.rotate.1)
    (hlsn : t'.writer.nextLsn = t.writer.nextLsn) (hcheckpoint : t'.checkpoint = t.writer.nextLsn - 1)
    (hstamped : t'.writer.file.committed.manifest.checkpointLsn = t'.checkpoint) : t'.Logged env [] [] := by
  obtain ⟨hrotated, hretired⟩ := h.holds.rotate
  have hother : t.writer.wal.rotate.1 = !t.writer.wal.rotate.2.active := by
    rw [hretired]
    exact (Bool.not_not t.writer.wal.active).symm
  have hholds := hrotated.truncate
  rw [← hother, ← hwal] at hholds
  refine ⟨hholds, by simp, ?_, hstamped⟩
  rw [hcheckpoint, hlsn]
  exact Nat.sub_one_lt_of_lt h.checkpoint

theorem created {file : TableFile M} {kind : TableKind} {seed : MetaPage} (hfresh : file.Fresh kind seed)
    (current : TableSchema τ) : (freshTable file current).Logged env [] [] := by
  refine ⟨WalPair.fresh_holds env _, by simp, Nat.lt_succ_self _, ?_⟩
  change file.committed.manifest.checkpointLsn = file.committed.metaPage.checkpointLsn
  rw [hfresh.metaPage.2, hfresh.manifest]
  rfl

theorem appendRows (h : t.Logged env old fresh) {batches : List (RecordBatch τ ν)}
    (hok : t.appendRows env batches = .ok t') :
    t'.Logged env old (fresh ++ (planInserts t.writer.nextLsn t.writer.memtable.nextSeqno batches).1) ∧
      t'.unflushed (old ++ (fresh ++ (planInserts t.writer.nextLsn t.writer.memtable.nextSeqno batches).1)) =
        t.unflushed (old ++ fresh) ++ (planInserts t.writer.nextLsn t.writer.memtable.nextSeqno batches).1 := by
  obtain ⟨frames, wal, hframes, hwal, rfl⟩ := appendRows_ok hok
  obtain ⟨hrising, hbounds⟩ := planInserts_lsn t.writer.nextLsn t.writer.memtable.nextSeqno batches
  exact h.append hrising hbounds hframes hwal (Nat.le_add_right _ _) rfl

theorem appendOne (h : t.Logged env old fresh) {record : WalRecord τ ν} {frame : Bytes}
    (hrecord : record.lsn = t.writer.nextLsn) (hframe : encodeRecord env record = .ok frame)
    (hwal : t.writer.wal.appendGroup [frame] = .ok t'.writer.wal)
    (hlsn : t'.writer.nextLsn = t.writer.nextLsn + 1)
    (hfile : t'.writer.file.committed = t.writer.file.committed) :
    t'.Logged env old (fresh ++ [record]) ∧
      t'.unflushed (old ++ (fresh ++ [record])) = t.unflushed (old ++ fresh) ++ [record] := by
  refine h.append (List.pairwise_singleton _ _) (fun other hother => ?_) ?_ hwal ?_ hfile
  · rw [List.mem_singleton.mp hother, hrecord, hlsn]
    exact ⟨le_rfl, Nat.lt_succ_self _⟩
  · rw [List.mapM_cons, hframe]
    rfl
  · rw [hlsn]
    exact Nat.le_succ _

end Logged

theorem flushed_checkpoint [DecidableEq τ] {frozen : Frozen τ ν} {pending : Pending M} {f : TableFile M}
    (hpending : t.writeStage env frozen = .ok pending)
    (hcommit : TableFile.commit { t.writer.file with io := pending.io } pending.manifest = .ok f) :
    f.committed.metaPage.checkpointLsn = t.writer.nextLsn - 1 ∧ f.committed.manifest.stamps =
      (t.writer.nextLsn - 1, max frozen.memtable.nextSeqno t.writer.file.committed.manifest.nextSeqno,
        t.writer.file.committed.manifest.schema) := by
  obtain ⟨groups, -, hpending⟩ := bind_eq_ok.mp hpending
  obtain ⟨written, hwritten, hpending⟩ := bind_eq_ok.mp hpending
  have hstamps : pending.manifest.stamps = (t.flushManifest frozen).stamps :=
    (writeBitmaps_stamps hpending).trans (writeSegments_stamps hwritten)
  obtain ⟨hcommitted, hcheckpoint, -⟩ := TableFile.commit_stamps hcommit
  refine ⟨?_, hcommitted.trans hstamps⟩
  rw [hcheckpoint]
  exact congrArg Prod.fst hstamps

namespace Logged

variable {old fresh : List (WalRecord τ ν)}

theorem delete (h : t.Logged env old fresh) {planned : PlannedDeletes} {frame : Bytes} {wal : WalPair}
    (hframe : encodeRecord env (.delete t.writer.nextLsn planned.loggedSegments planned.memtable) = .ok frame)
    (hwal : t.writer.wal.appendGroup [frame] = .ok wal) (ht : t' = publish { t with writer :=
      (applyDeletes { t.writer with wal := wal, nextLsn := t.writer.nextLsn + 1 } planned).2 }) :
    t'.Logged env old (fresh ++ [.delete t.writer.nextLsn planned.loggedSegments planned.memtable]) ∧
      t'.unflushed (old ++ (fresh ++ [.delete t.writer.nextLsn planned.loggedSegments planned.memtable])) =
        t.unflushed (old ++ fresh) ++ [.delete t.writer.nextLsn planned.loggedSegments planned.memtable] := by
  rw [applyDeletes_snd] at ht
  subst ht
  exact h.appendOne rfl hframe hwal rfl rfl

theorem flushed [DecidableEq τ] (h : t.Logged env old fresh) {pending : Pending M} {f : TableFile M}
    (hpending : t.rotated.writeStage env (t.frozen env) = .ok pending)
    (hcommit : TableFile.commit { t.writer.file with io := pending.io } pending.manifest = .ok f)
    (ht : t' = (publish { t with writer := { t.rotated.writer with file := f } }).truncateStage t.writer.wal.rotate.1) :
    t'.Logged env [] [] := by
  obtain ⟨hcheckpoint, hstamps⟩ := flushed_checkpoint (t := t.rotated) hpending hcommit
  subst ht
  refine h.flush rfl rfl hcheckpoint ?_
  change f.committed.manifest.checkpointLsn = f.committed.metaPage.checkpointLsn
  rw [hcheckpoint]
  exact congrArg Prod.fst hstamps

theorem compactLocked [DecidableEq τ] (h : t.Logged env old fresh) {rewrite : Rewrite τ ν} {rows : Nat}
    (hok : t.compactLocked env rewrite = .ok (rows, t')) :
    t'.Logged env old fresh ∧ t'.unflushed (old ++ fresh) = t.unflushed (old ++ fresh) := by
  rcases compactLocked_ok hok with ⟨-, rfl⟩ | ⟨groups, pending, f, -, -, hpending, hcommit, rfl⟩
  · exact ⟨h, rfl⟩
  · have hstamps := (Manifest.stamps_retire pending.manifest rewrite.ids rewrite.sources).trans
      (writeSegments_stamps hpending)
    rw [Writer.forgetAll_eq]
    exact h.commits rfl rfl (congrArg Prod.fst hstamps) hcommit rfl

theorem deleteSegments (h : t.Logged env old fresh) {segmentIds : List SegmentId} {deleted : Nat}
    (hok : t.deleteSegments segmentIds = .ok (deleted, t')) :
    t'.Logged env old fresh ∧ t'.unflushed (old ++ fresh) = t.unflushed (old ++ fresh) := by
  rcases deleteSegments_ok hok with ⟨-, rfl⟩ | ⟨-, f, hcommit, rfl⟩
  · rw [Writer.forgetAll_eq]
    exact h.quiet rfl rfl rfl
  · rw [Writer.forgetAll_eq]
    have hsame : TableFile.commit { t.writer.file with io := t.writer.file.io }
      (t.writer.file.beginManifest.retire segmentIds (t.dropped segmentIds)) = .ok f := hcommit
    exact h.commits rfl rfl
      (congrArg Prod.fst (Manifest.stamps_retire t.writer.file.beginManifest segmentIds _)) hsame rfl

theorem commitSchema [DecidableEq τ] (h : t.Logged env old fresh) {before after : TableSchema τ} {rewrite : Bool}
    {s : Snapshot τ ν} (hok : t.commitSchema env before after rewrite s = .ok t') :
    t'.Logged env old fresh ∧ t'.unflushed (old ++ fresh) = t.unflushed (old ++ fresh) := by
  obtain ⟨-, extent, file, -, ⟨-, f, hcommit, rfl⟩ | ⟨-, pending, f, hpending, hcommit, rfl⟩⟩ := commitSchema_ok hok
  · have hm : ({ t.writer.file.beginManifest with schema := extent } : Manifest).checkpointLsn =
      t.writer.file.committed.manifest.checkpointLsn := rfl
    exact h.commits rfl rfl hm hcommit rfl
  · have hstamps := (Manifest.stamps_retire pending.manifest (s.liveSegments.map SegmentEntry.segmentId)
      s.liveSegments).trans (convertSegments_stamps hpending)
    rw [Writer.forgetAll_eq]
    exact h.commits rfl rfl (congrArg Prod.fst hstamps) hcommit rfl

theorem setSchemaLocked [DecidableEq τ] (h : t.Logged env old fresh) {before after : TableSchema τ} {rewrite : Bool}
    {s : Snapshot τ ν} (hok : t.setSchemaLocked env before after rewrite s = .ok t') :
    t'.Logged env old fresh ∧ t'.unflushed (old ++ fresh) = t.unflushed (old ++ fresh) := by
  obtain ⟨t₁, hcommit, rfl⟩ := setSchemaLocked_ok hok
  obtain ⟨hlogged, hsame⟩ := h.commitSchema hcommit
  have hadopted : (t₁.adoptSchema after).Logged env old fresh ∧
      (t₁.adoptSchema after).unflushed (old ++ fresh) = t₁.unflushed (old ++ fresh) := hlogged.quiet rfl rfl rfl
  exact ⟨hadopted.1, hadopted.2.trans hsame⟩

end Logged

end Table

end LocalTables
