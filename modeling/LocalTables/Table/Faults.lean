import LocalTables.Table.Rows
import LocalTables.Table.Stored
import LocalTables.TableFile.Retry

/-! What a call leaves behind when it fails. Every write of the table file may stop part way, and so may a commit; the call
then returns with the writer as far as it got. A compaction, a dropped segment and a rewriting schema change give up the
deletions of the segments they retire before they commit. -/

namespace LocalTables

variable {τ ν : Type} {M : Media τ ν}

/-- One thing after another is dealt with, until one of them fails. -/
def FoldFails {α β γ : Type} (step : β → α → Except Error β) (fails : β → α → γ → Prop) (start : β) (xs : List α) (left : γ) :
    Prop :=
  ∃ front x back reached, xs = front ++ x :: back ∧ front.foldlM step start = .ok reached ∧ fails reached x left

/-- A blob is not written: it cannot be encoded, or a request for it stops. -/
inductive WriteFails (p : Pending M) (blob : Blob τ ν) (align minActive : Nat) : FileIo M → Prop where
  | refused {e : Error} (h : writeAllocated p.io p.manifest blob align minActive = .error e) :
      WriteFails p blob align minActive p.io
  | stopped {extent : Extent} {m : Manifest} {io : FileIo M} {left : M.File}
      (h : writeAllocated p.io p.manifest blob align minActive = .ok (extent, m, io))
      (hcut : M.Cut p.io.file (FileIo.since p.io io) left) : WriteFails p blob align minActive ⟨left, p.io.log⟩

/-- A commit stops part way, its last sync included. -/
def CommitFails (f : TableFile M) (m : Manifest) (io : FileIo M) : Prop :=
  ∃ left, M.Cut f.io.file (f.commitRequests m) left ∧ io = ⟨left, f.io.log⟩

namespace Table

section Fails

variable [DecidableEq τ] (env : Env τ ν)

/-- A segment is not written: it cannot be built, or its blob is not written. -/
inductive SegmentFails (current : TableSchema τ) (minActive : Nat) (p : Pending M) (batches : List (RecordBatch τ ν)) :
    FileIo M → Prop where
  | build {e : Error} (hrows : totalRows batches ≠ 0)
      (h : buildSegment env p.manifest.nextSegmentId current batches = .error e) :
      SegmentFails current minActive p batches p.io
  | write {data : SegmentData ν} {io : FileIo M} (hrows : totalRows batches ≠ 0)
      (hbuild : buildSegment env p.manifest.nextSegmentId current batches = .ok data)
      (h : WriteFails p (.segment data) segmentAlign minActive io) : SegmentFails current minActive p batches io

/-- Batches are not all written as row groups: they cannot be cut up, or a group is not written. -/
inductive GroupsFail (current : TableSchema τ) (minActive groupRows : Nat) (p : Pending M) (batches : List (RecordBatch τ ν)) :
    FileIo M → Prop where
  | groups {e : Error} (h : rowGroups env batches groupRows current.schema current.clusterColumns = .error e) :
      GroupsFail current minActive groupRows p batches p.io
  | write {groups : List (List (RecordBatch τ ν))} {io : FileIo M}
      (h : rowGroups env batches groupRows current.schema current.clusterColumns = .ok groups)
      (hfails : FoldFails (writeSegment env current minActive) (SegmentFails env current minActive) p groups io) :
      GroupsFail current minActive groupRows p batches io

/-- A bitmap is not written. -/
def BitmapFails (deletes : SegmentId → Option (Finset Nat)) (minActive : Nat) (p : Pending M) (id : SegmentId)
    (io : FileIo M) : Prop :=
  ∃ rows entry, deletes id = some rows ∧ p.manifest.segment id = some entry ∧
    WriteFails p (.deletes rows) bufferAlign minActive io

/-- A flush fails. The memtable and the dirty segments were taken out first; where a log fails, it may be left in any
state. -/
inductive FlushFails (t : Table M) : Table M → Prop where
  | rotate (wal : WalPair) (hsome : ¬(t.frozen env).isEmpty) :
      FlushFails t { t with writer := { t.frozenWriter with wal := wal } }
  | groups {io : FileIo M} (hsome : ¬(t.frozen env).isEmpty)
      (h : GroupsFail env t.schema t.minActiveTxn (env.options.rowGroupSizeFor
        ((t.rotated.flushManifest (t.frozen env)).totalRows + (t.frozen env).memtable.rows))
        ⟨t.writer.file.io, t.rotated.flushManifest (t.frozen env)⟩ (t.frozen env).memtable.batches io) :
      FlushFails t (t.rotated.withIo io)
  | bitmap {groups : List (List (RecordBatch τ ν))} {pending : Pending M} {io : FileIo M}
      (hsome : ¬(t.frozen env).isEmpty) (hgroups : t.rotated.flushGroups env (t.frozen env) = .ok groups)
      (hpending : groups.foldlM (writeSegment env t.schema t.minActiveTxn)
        ⟨t.writer.file.io, t.rotated.flushManifest (t.frozen env)⟩ = .ok pending)
      (h : FoldFails (writeBitmap t.writer.deletes t.minActiveTxn) (BitmapFails t.writer.deletes t.minActiveTxn) pending
        (t.frozen env).dirty io) : FlushFails t (t.rotated.withIo io)
  | commit {pending : Pending M} {io : FileIo M} (hsome : ¬(t.frozen env).isEmpty)
      (hpending : t.rotated.writeStage env (t.frozen env) = .ok pending)
      (h : CommitFails { t.writer.file with io := pending.io } pending.manifest io) : FlushFails t (t.rotated.withIo io)
  | truncate {pending : Pending M} {t₁ : Table M} (wal : WalPair) (hsome : ¬(t.frozen env).isEmpty)
      (hpending : t.rotated.writeStage env (t.frozen env) = .ok pending)
      (h : (t.rotated.withIo pending.io).commit pending.manifest = .ok t₁) :
      FlushFails t (t₁.withWriter { t₁.writer with wal := wal })

/-- The locked half of a compaction fails. The list is what it has retired by then. -/
inductive CompactFails (t : Table M) (rewrite : Rewrite τ ν) : List SegmentId → Table M → Prop where
  | groups {io : FileIo M} (hfresh : ¬t.isStale rewrite)
      (h : GroupsFail env t.schema t.minActiveTxn (env.options.rowGroupSizeFor
        (max t.writer.file.beginManifest.totalRows (totalRows rewrite.live)))
        ⟨t.writer.file.io, t.writer.file.beginManifest⟩ rewrite.live io) : CompactFails t rewrite [] (t.withIo io)
  | commit {groups : List (List (RecordBatch τ ν))} {pending : Pending M} {io : FileIo M} (hfresh : ¬t.isStale rewrite)
      (hgroups : rowGroups env rewrite.live (env.options.rowGroupSizeFor
        (max t.writer.file.beginManifest.totalRows (totalRows rewrite.live))) t.schema.schema t.schema.clusterColumns =
          .ok groups)
      (hpending : groups.foldlM (writeSegment env t.schema t.minActiveTxn)
        ⟨t.writer.file.io, t.writer.file.beginManifest⟩ = .ok pending)
      (h : CommitFails { t.writer.file with io := pending.io } (pending.manifest.retire rewrite.ids rewrite.sources) io) :
      CompactFails t rewrite (rewrite.sources.map SegmentEntry.segmentId)
        ((t.withIo io).withWriter ((t.withIo io).writer.forgetAll (rewrite.sources.map SegmentEntry.segmentId)))

/-- Dropping segments fails. Nothing but the commit can. -/
inductive DeleteSegmentsFails (t : Table M) (segmentIds : List SegmentId) : List SegmentId → Table M → Prop where
  | commit {io : FileIo M} (hsome : t.droppedRows segmentIds ≠ 0)
      (h : CommitFails t.writer.file (t.writer.file.beginManifest.retire segmentIds (t.dropped segmentIds)) io) :
      DeleteSegmentsFails t segmentIds ((t.dropped segmentIds).map SegmentEntry.segmentId)
        ((t.withIo io).withWriter ((t.withIo io).writer.forgetAll ((t.dropped segmentIds).map SegmentEntry.segmentId)))

/-- A segment is not converted: it cannot be read, a row cannot be converted, or the batches that have collected are not
written. -/
inductive ConvertFails (s : Snapshot τ ν) (before after : TableSchema τ) (minActive groupRows : Nat) (c : Conversion M)
    (entry : SegmentEntry) : FileIo M → Prop where
  | read {e : Error} (h : readSegmentAs env c.pending.io.file s entry before.schema.fields before.layout = .error e) :
      ConvertFails s before after minActive groupRows c entry c.pending.io
  | convert {read : List (RecordBatch τ ν)} {e : Error}
      (hread : readSegmentAs env c.pending.io.file s entry before.schema.fields before.layout = .ok read)
      (h : read.mapM (convert env before.schema after.schema) = .error e) :
      ConvertFails s before after minActive groupRows c entry c.pending.io
  | write {read converted : List (RecordBatch τ ν)} {io : FileIo M}
      (hread : readSegmentAs env c.pending.io.file s entry before.schema.fields before.layout = .ok read)
      (hconvert : read.mapM (LocalTables.convert env before.schema after.schema) = .ok converted)
      (hfull : ¬c.bytes + entry.data.len < max env.options.compactionMaxBytes 1)
      (h : GroupsFail env after minActive groupRows c.pending (c.batches ++ converted) io) :
      ConvertFails s before after minActive groupRows c entry io

/-- The locked part of a schema change fails. -/
inductive CommitSchemaFails (t : Table M) (before after : TableSchema τ) (rewrite : Bool) (s : Snapshot τ ν) :
    List SegmentId → Table M → Prop where
  | landed (h : ¬t.writer.memtable.isEmpty) : CommitSchemaFails t before after rewrite s [] t
  | refused {e : Error} (h : t.writer.file.writeSchema after.schema = .error e) :
      CommitSchemaFails t before after rewrite s [] t
  | schema {extent : Extent} {file : TableFile M} {left : M.File}
      (hschema : t.writer.file.writeSchema after.schema = .ok (extent, file))
      (hcut : M.Cut t.writer.file.io.file (FileIo.since t.writer.file.io file.io) left) :
      CommitSchemaFails t before after rewrite s [] (t.withIo ⟨left, t.writer.file.io.log⟩)
  | convert {extent : Extent} {file : TableFile M} {io : FileIo M} (hrewrite : rewrite = true)
      (hschema : t.writer.file.writeSchema after.schema = .ok (extent, file))
      (h : FoldFails (convertSegment env (writeSegment env after t.minActiveTxn) s before after
          (env.options.rowGroupSizeFor (s.liveSegments.map SegmentEntry.rowCount).sum))
        (ConvertFails env s before after t.minActiveTxn
          (env.options.rowGroupSizeFor (s.liveSegments.map SegmentEntry.rowCount).sum))
        ⟨⟨file.io, { t.writer.file.beginManifest with schema := extent }⟩, [], 0⟩ s.liveSegments io) :
      CommitSchemaFails t before after rewrite s [] (t.withIo io)
  | rest {extent : Extent} {file : TableFile M} {c : Conversion M} {io : FileIo M} (hrewrite : rewrite = true)
      (hschema : t.writer.file.writeSchema after.schema = .ok (extent, file))
      (hall : s.liveSegments.foldlM (convertSegment env (writeSegment env after t.minActiveTxn) s before after
          (env.options.rowGroupSizeFor (s.liveSegments.map SegmentEntry.rowCount).sum))
        ⟨⟨file.io, { t.writer.file.beginManifest with schema := extent }⟩, [], 0⟩ = .ok c)
      (h : GroupsFail env after t.minActiveTxn (env.options.rowGroupSizeFor (s.liveSegments.map SegmentEntry.rowCount).sum)
        c.pending c.batches io) : CommitSchemaFails t before after rewrite s [] (t.withIo io)
  | commit {extent : Extent} {file : TableFile M} {pending : Pending M} {io : FileIo M} (hrewrite : rewrite = true)
      (hschema : t.writer.file.writeSchema after.schema = .ok (extent, file))
      (hpending : convertSegments env (writeSegment env after t.minActiveTxn) s s.liveSegments before after
        ⟨file.io, { t.writer.file.beginManifest with schema := extent }⟩ = .ok pending)
      (h : CommitFails { t.writer.file with io := pending.io }
        (pending.manifest.retire (s.liveSegments.map SegmentEntry.segmentId) s.liveSegments) io) :
      CommitSchemaFails t before after rewrite s (s.liveSegments.map SegmentEntry.segmentId)
        ((t.withIo io).withWriter ((t.withIo io).writer.forgetAll (s.liveSegments.map SegmentEntry.segmentId)))
  | keep {extent : Extent} {file : TableFile M} {io : FileIo M} (hkeep : rewrite = false)
      (hschema : t.writer.file.writeSchema after.schema = .ok (extent, file))
      (h : CommitFails { t.writer.file with io := file.io } { t.writer.file.beginManifest with schema := extent } io) :
      CommitSchemaFails t before after rewrite s [] (t.withIo io)

/-- A schema change fails: in its flush, between the flush and the lock, or under the lock. -/
inductive SetSchemaFails (t : Table M) (schema : Schema τ) (rewrite : Bool) : List SegmentId → Table M → Prop where
  | flush {t' : Table M} (h : FlushFails env t t') : SetSchemaFails t schema rewrite [] t'
  | schema {rows : Nat} {t₁ : Table M} {e : Error} (hflush : t.flushLocked env = .ok (rows, t₁))
      (h : TableSchema.new env schema = .error e) : SetSchemaFails t schema rewrite [] t₁
  | locked {rows : Nat} {t₁ t' : Table M} {after : TableSchema τ} {retired : List SegmentId}
      (hflush : t.flushLocked env = .ok (rows, t₁)) (hafter : TableSchema.new env schema = .ok after)
      (h : CommitSchemaFails env t₁.pin t₁.schema after rewrite t₁.current retired t') :
      SetSchemaFails t schema rewrite retired t'.unpinFirst

end Fails

/-- What the writer has in memory is as it was. -/
structure SameMemory (t t' : Table M) : Prop where
  deletes : t'.writer.deletes = t.writer.deletes
  dirtyDeletes : t'.writer.dirtyDeletes = t.writer.dirtyDeletes
  memtable : t'.writer.memtable = t.writer.memtable
  manifest : t'.writer.file.committed.manifest = t.writer.file.committed.manifest

/-- No deletions are known of these segments. -/
def NoneDeleted (t : Table M) (ids : List SegmentId) : Prop :=
  ∀ id ∈ ids, t.writer.deletes id = none ∧ id ∉ t.writer.dirtyDeletes

/-- There is nothing for a flush to take out: no row in the memtable, deleted or not, and no dirty segment. -/
def NothingHeld (t : Table M) : Prop := t.writer.memtable.freeze.2 = t.writer.memtable ∧ t.writer.dirtyDeletes = []

section Forget

theorem foldl_erase_sublist (ids dirty : List SegmentId) : (ids.foldl List.erase dirty).Sublist dirty := by
  induction ids generalizing dirty with
  | nil => exact List.Sublist.refl _
  | cons id ids ih => exact (ih _).trans List.erase_sublist

theorem foldl_erase_eq_self {ids dirty : List SegmentId} : ids.foldl List.erase dirty = dirty ↔ ∀ id ∈ ids, id ∉ dirty := by
  induction ids generalizing dirty with
  | nil => simp
  | cons id ids ih =>
      constructor
      · intro h
        have herase : dirty.erase id = dirty := by
          refine List.erase_sublist.antisymm ?_
          have hsub := foldl_erase_sublist ids (dirty.erase id)
          rw [← List.foldl_cons, h] at hsub
          exact hsub
        have hnot : id ∉ dirty := List.erase_eq_self_iff.mp herase
        rw [List.foldl_cons, herase, ih] at h
        exact List.forall_mem_cons.mpr ⟨hnot, h⟩
      · intro h
        rw [List.foldl_cons, List.erase_of_not_mem (h id List.mem_cons_self), ih]
        exact fun other hother => h other (List.mem_cons_of_mem _ hother)

/-- Giving up the deletions of segments changes nothing exactly when there are none. -/
theorem forgetAll_eq_self (w : Writer M) (ids : List SegmentId) :
    (w.forgetAll ids).deletes = w.deletes ∧ (w.forgetAll ids).dirtyDeletes = w.dirtyDeletes ↔
      ∀ id ∈ ids, w.deletes id = none ∧ id ∉ w.dirtyDeletes := by
  rw [Writer.forgetAll_eq]
  dsimp only
  rw [foldl_erase_eq_self]
  constructor
  · rintro ⟨hdeletes, hdirty⟩ id hid
    refine ⟨?_, hdirty id hid⟩
    rw [← congrFun hdeletes id, if_pos hid]
  · intro h
    refine ⟨funext fun id => ?_, fun id hid => (h id hid).2⟩
    by_cases hid : id ∈ ids
    · rw [if_pos hid, (h id hid).1]
    · rw [if_neg hid]

theorem forgetAll_of_none {t : Table M} {ids : List SegmentId} (h : t.NoneDeleted ids) (io : FileIo M) :
    (t.withIo io).withWriter ((t.withIo io).writer.forgetAll ids) = t.withIo io := by
  obtain ⟨hdeletes, hdirty⟩ := (forgetAll_eq_self (t.withIo io).writer ids).mpr h
  have hwriter : (t.withIo io).writer.forgetAll ids = (t.withIo io).writer := by
    rw [Writer.forgetAll_eq] at hdeletes hdirty ⊢
    dsimp only at hdeletes hdirty
    rw [hdeletes, hdirty]
  rw [hwriter]
  rfl

end Forget

section Calls

variable {env : Env τ ν} {t t' : Table M} {retired : List SegmentId}

/-- The call got as far as giving up the deletions of these segments, and wrote to the file. -/
def GaveUp (t : Table M) (retired : List SegmentId) (t' : Table M) : Prop :=
  ∃ io, t' = (t.withIo io).withWriter ((t.withIo io).writer.forgetAll retired)

theorem gaveUp_nil (t : Table M) (io : FileIo M) : t.GaveUp [] (t.withIo io) := ⟨io, rfl⟩

theorem GaveUp.same_iff (h : t.GaveUp retired t') : t.SameMemory t' ↔ t.NoneDeleted retired := by
  obtain ⟨io, rfl⟩ := h
  have hiff := forgetAll_eq_self (t.withIo io).writer retired
  rw [NoneDeleted]
  refine Iff.trans ⟨fun hsame => ⟨hsame.deletes, hsame.dirtyDeletes⟩, fun hsame => ⟨hsame.1, hsame.2, ?_, ?_⟩⟩ hiff
  · dsimp only [withWriter]
    rw [Writer.forgetAll_eq]
    rfl
  · dsimp only [withWriter]
    rw [Writer.forgetAll_eq]
    rfl

theorem GaveUp.eq_withIo (h : t.GaveUp retired t') (hnone : t.NoneDeleted retired) : ∃ io, t' = t.withIo io := by
  obtain ⟨io, rfl⟩ := h
  exact ⟨io, forgetAll_of_none hnone io⟩

theorem DeleteSegmentsFails.gaveUp {segmentIds : List SegmentId} (h : DeleteSegmentsFails t segmentIds retired t') :
    t.GaveUp retired t' := by
  cases h with
  | commit _ _ => exact ⟨_, rfl⟩

variable [DecidableEq τ]

theorem CompactFails.gaveUp {rewrite : Rewrite τ ν} (h : CompactFails env t rewrite retired t') : t.GaveUp retired t' := by
  cases h with
  | groups _ _ => exact gaveUp_nil t _
  | commit _ _ _ _ => exact ⟨_, rfl⟩

theorem CommitSchemaFails.gaveUp {before after : TableSchema τ} {rewrite : Bool} {s : Snapshot τ ν}
    (h : CommitSchemaFails env t before after rewrite s retired t') : t.GaveUp retired t' := by
  cases h with
  | landed _ => exact gaveUp_nil t t.writer.file.io
  | refused _ => exact gaveUp_nil t t.writer.file.io
  | schema _ _ => exact gaveUp_nil t _
  | convert _ _ _ => exact gaveUp_nil t _
  | rest _ _ _ _ => exact gaveUp_nil t _
  | commit _ _ _ _ => exact ⟨_, rfl⟩
  | keep _ _ _ => exact gaveUp_nil t _

omit [DecidableEq τ] in
theorem NothingHeld.frozen_isEmpty (h : t.NothingHeld) : (t.frozen env).isEmpty = true := by
  have hrows : t.writer.memtable.liveRows = 0 := by
    rw [← h.1]
    rfl
  have hdirty : env.drain t.writer.dirtyDeletes = [] := by
    rw [h.2]
    exact (env.drain_perm []).eq_nil
  rw [Frozen.isEmpty, Table.frozen, FrozenMemtable.isEmpty, hdirty]
  simp [Memtable.freeze, hrows]

omit [DecidableEq τ] in
theorem NothingHeld.frozenWriter_eq (h : t.NothingHeld) : { t with writer := t.frozenWriter } = t := by
  have hwriter : t.frozenWriter = t.writer := by
    rw [frozenWriter, h.1, ← h.2]
  rw [hwriter]

theorem NothingHeld.flushLocked (h : t.NothingHeld) {rows : Nat} (hok : t.flushLocked env = .ok (rows, t')) : t' = t := by
  rcases flushLocked_ok hok with ⟨-, rfl⟩ | ⟨-, -, hsome, -⟩
  · exact h.frozenWriter_eq
  · exact absurd h.frozen_isEmpty hsome

/-- What a flush takes out is out, whether it returns or not. -/
theorem flushLocked_takes {rows : Nat} (hok : t.flushLocked env = .ok (rows, t')) :
    t'.writer.memtable = t.writer.memtable.freeze.2 ∧ t'.writer.dirtyDeletes = [] := by
  rcases flushLocked_ok hok with ⟨-, rfl⟩ | ⟨-, -, -, -, -, rfl⟩
  · exact ⟨rfl, rfl⟩
  · exact ⟨rfl, rfl⟩

theorem FlushFails.takes (h : FlushFails env t t') : ¬(t.frozen env).isEmpty ∧
    t'.writer.memtable = t.writer.memtable.freeze.2 ∧ t'.writer.dirtyDeletes = [] := by
  cases h with
  | rotate _ hsome => exact ⟨hsome, rfl, rfl⟩
  | groups hsome _ => exact ⟨hsome, rfl, rfl⟩
  | bitmap hsome _ _ _ => exact ⟨hsome, rfl, rfl⟩
  | commit hsome _ _ => exact ⟨hsome, rfl, rfl⟩
  | truncate _ hsome _ hcommit =>
      obtain ⟨f, -, rfl⟩ := commit_ok hcommit
      exact ⟨hsome, rfl, rfl⟩

/-- A failed schema change leaves the memory as it was exactly when there was nothing to flush and nothing to give up. -/
theorem SetSchemaFails.same_iff {schema : Schema τ} {rewrite : Bool} (h : SetSchemaFails env t schema rewrite retired t') :
    t.SameMemory t' ↔ t.NothingHeld ∧ t.NoneDeleted retired := by
  cases h with
  | flush hfails =>
      obtain ⟨hsome, hmemtable, hdirty⟩ := hfails.takes
      constructor
      · intro hsame
        have hheld : t.NothingHeld := ⟨hmemtable.symm.trans hsame.memtable, hsame.dirtyDeletes.symm.trans hdirty⟩
        exact absurd hheld.frozen_isEmpty hsome
      · rintro ⟨hheld, -⟩
        exact absurd hheld.frozen_isEmpty hsome
  | schema hflush hnew =>
      obtain ⟨hmemtable, hdirty⟩ := flushLocked_takes hflush
      constructor
      · intro hsame
        exact ⟨⟨hmemtable.symm.trans hsame.memtable, hsame.dirtyDeletes.symm.trans hdirty⟩, by simp [NoneDeleted]⟩
      · rintro ⟨hheld, -⟩
        rw [hheld.flushLocked hflush]
        exact ⟨rfl, rfl, rfl, rfl⟩
  | @locked rows t₁ t₂ after _ hflush hafter hfails =>
      have hunpin : t.SameMemory t₂.unpinFirst ↔ t.SameMemory t₂ :=
        ⟨fun h => ⟨h.deletes, h.dirtyDeletes, h.memtable, h.manifest⟩, fun h => ⟨h.deletes, h.dirtyDeletes, h.memtable, h.manifest⟩⟩
      obtain ⟨hmemtable, hdirty⟩ := flushLocked_takes hflush
      have hgave := hfails.gaveUp
      rw [hunpin]
      constructor
      · intro hsame
        obtain ⟨io, rfl⟩ := id hgave
        have hheld : t.NothingHeld := by
          have hmem := hsame.memtable
          have hdir := hsame.dirtyDeletes
          dsimp only [withWriter] at hmem hdir
          rw [Writer.forgetAll_eq] at hmem hdir
          have hnone : retired.foldl List.erase ([] : List SegmentId) = [] :=
            List.sublist_nil.mp (foldl_erase_sublist retired [])
          refine ⟨hmemtable.symm.trans hmem, ?_⟩
          rw [← hdir]
          change retired.foldl List.erase t₁.writer.dirtyDeletes = []
          rw [hdirty, hnone]
        obtain rfl := hheld.flushLocked hflush
        exact ⟨hheld, hgave.same_iff.mp ⟨hsame.deletes, hsame.dirtyDeletes, hsame.memtable, hsame.manifest⟩⟩
      · rintro ⟨hheld, hnone⟩
        obtain rfl := hheld.flushLocked hflush
        have hsame := hgave.same_iff.mpr hnone
        exact ⟨hsame.deletes, hsame.dirtyDeletes, hsame.memtable, hsame.manifest⟩

theorem SetSchemaFails.eq_withIo {schema : Schema τ} {rewrite : Bool} (h : SetSchemaFails env t schema rewrite retired t')
    (hheld : t.NothingHeld) (hnone : t.NoneDeleted retired) : ∃ io, t' = t.withIo io := by
  cases h with
  | flush hfails => exact absurd hheld.frozen_isEmpty hfails.takes.1
  | schema hflush hnew =>
      obtain rfl := hheld.flushLocked hflush
      exact ⟨t'.writer.file.io, rfl⟩
  | locked hflush hafter hfails =>
      obtain rfl := hheld.flushLocked hflush
      obtain ⟨io, rfl⟩ := hfails.gaveUp.eq_withIo hnone
      exact ⟨io, rfl⟩

end Calls

end Table

/-- A call that retires segments. A compaction is its locked half, with whatever it was handed. -/
inductive Upkeep (τ ν : Type) where
  | compactRun (rewrite : Rewrite τ ν)
  | deleteSegments (segmentIds : List SegmentId)
  | setSchema (schema : Schema τ)

namespace Upkeep

/-- The call fails, with so many segments retired by then. -/
def Fails [DecidableEq τ] (env : Env τ ν) (t : Table M) (retired : List SegmentId) (t' : Table M) : Upkeep τ ν → Prop
  | compactRun rewrite => Table.CompactFails env t rewrite retired t'
  | deleteSegments segmentIds => Table.DeleteSegmentsFails t segmentIds retired t'
  | setSchema schema => Table.SetSchemaFails env t schema true retired t'

/-- No deletions are known of the segments it has retired, and a schema change finds nothing to flush. -/
def Harmless (t : Table M) (retired : List SegmentId) : Upkeep τ ν → Prop
  | compactRun _ => t.NoneDeleted retired
  | deleteSegments _ => t.NoneDeleted retired
  | setSchema _ => t.NothingHeld ∧ t.NoneDeleted retired

variable [DecidableEq τ] {env : Env τ ν} {t t' : Table M} {retired : List SegmentId} {call : Upkeep τ ν}

theorem Fails.same_iff (h : call.Fails env t retired t') : t.SameMemory t' ↔ call.Harmless t retired := by
  cases call with
  | compactRun rewrite => exact Table.GaveUp.same_iff (Table.CompactFails.gaveUp h)
  | deleteSegments segmentIds => exact Table.GaveUp.same_iff (Table.DeleteSegmentsFails.gaveUp h)
  | setSchema schema => exact Table.SetSchemaFails.same_iff h

theorem Fails.eq_withIo (h : call.Fails env t retired t') (hharmless : call.Harmless t retired) :
    ∃ io, t' = t.withIo io := by
  cases call with
  | compactRun rewrite => exact Table.GaveUp.eq_withIo (Table.CompactFails.gaveUp h) hharmless
  | deleteSegments segmentIds => exact Table.GaveUp.eq_withIo (Table.DeleteSegmentsFails.gaveUp h) hharmless
  | setSchema schema => exact Table.SetSchemaFails.eq_withIo h hharmless.1 hharmless.2

end Upkeep

namespace Table

section Follows

variable {env : Env τ ν} {t t' t'' : Table M}

/-- What goes on after a failure: calls that return, readers, and failures that are harmless. Dropping segments with no live
row left must not find deletions of them. -/
inductive Follows [DecidableEq τ] (env : Env τ ν) : Table M → Table M → Prop where
  | insert {t t' : Table M} (batches : List (RecordBatch τ ν)) {rows : Nat}
      (h : t.insertLocked env batches = .ok (rows, t')) : Follows env t t'
  | delete {t t' : Table M} (segmentDeletions : List (SegmentId × List Nat)) (memtableSeqnos : List Nat)
      {deleted : Nat} (h : t.delete env segmentDeletions memtableSeqnos = .ok (deleted, t')) : Follows env t t'
  | update {t t' : Table M} (segmentDeletions : List (SegmentId × List Nat)) (memtableSeqnos : List Nat)
      (replacements : List (RecordBatch τ ν)) {rows : Nat}
      (h : t.updateLocked env segmentDeletions memtableSeqnos replacements = .ok (rows, t')) : Follows env t t'
  | flush {t t' : Table M} {rows : Nat} (h : t.flushLocked env = .ok (rows, t')) : Follows env t t'
  | compact {t t' : Table M} (ids : List SegmentId) {rewrite : Rewrite τ ν} {rows : Nat} (hids : ids.Nodup)
      (hread : t.compactRead env ids = .ok rewrite) (h : t.compactLocked env rewrite = .ok (rows, t')) : Follows env t t'
  | deleteSegments {t t' : Table M} (segmentIds : List SegmentId) {deleted : Nat}
      (hkeeps : t.droppedRows segmentIds ≠ 0 ∨ t.NoneDeleted ((t.dropped segmentIds).map SegmentEntry.segmentId))
      (h : t.deleteSegments segmentIds = .ok (deleted, t')) : Follows env t t'
  | setSchema {t t' : Table M} (after : TableSchema τ) (rewrite : Bool)
      (h : t.setSchemaLocked env t.schema after rewrite t.current = .ok t') : Follows env t t'
  | pin (t : Table M) : Follows env t t.pin
  | unpin (t : Table M) (index : Nat) : Follows env t (t.unpin index)
  | fails {t t' : Table M} (call : Upkeep τ ν) {retired : List SegmentId} (h : call.Fails env t retired t')
      (hharmless : call.Harmless t retired) : Follows env t t'

/-- Runs of a table that was just created, in which every failure is harmless. -/
inductive Upkept [DecidableEq τ] (env : Env τ ν) : Table M → Prop where
  | create {t : Table M} (schema : Schema τ) (fingerprint : Schema τ → Nat) (newTableUuid : Extent → List UInt8)
      (h : create env M schema fingerprint newTableUuid none = .ok t) : Upkept env t
  | step {t t' : Table M} (hrun : Upkept env t) (hstep : Follows env t t') : Upkept env t'

theorem Tidy.withIo (h : t.Tidy) (io : FileIo M) : (t.withIo io).Tidy :=
  ⟨h.memtable, h.shown, h.numbered, h.known, h.bounded, h.schema, h.shownSchema, h.shownLayout⟩

variable [DecidableEq τ]

theorem Follows.tidy (hstep : Follows env t t') (h : t.Tidy) : t'.Tidy := by
  cases hstep with
  | insert batches hok => exact (Locked.insert batches hok).tidy h
  | delete segmentDeletions memtableSeqnos hok => exact h.delete hok
  | update segmentDeletions memtableSeqnos replacements hok =>
      exact (Locked.update segmentDeletions memtableSeqnos replacements hok).tidy h
  | flush hok => exact h.flushLocked hok
  | compact ids hids hread hok => exact h.compactLocked hok
  | deleteSegments segmentIds hkeeps hok => exact h.deleteSegments hok
  | setSchema after rewrite hok => exact h.setSchemaLocked hok
  | pin =>
      have hlocked : Locked env t t.pin := .pin t
      exact hlocked.tidy h
  | unpin index =>
      have hlocked : Locked env t (t.unpin index) := .unpin t index
      exact hlocked.tidy h
  | fails call hfails hharmless =>
      obtain ⟨io, rfl⟩ := hfails.eq_withIo hharmless
      exact h.withIo io

omit [DecidableEq τ] in
/-- Segments are retired with their deletions, and new ones are listed. -/
theorem Ages.retires (h : t.Tidy) {retired : List SegmentId}
    (hnext : t.writer.file.committed.manifest.Succeeds t'.writer.file.committed.manifest)
    (hretired : ∀ entry ∈ t'.writer.file.committed.manifest.segments, entry.segmentId ∉ retired)
    (hdeletes : ∀ id, id ∉ retired → t'.writer.deletes id = t.writer.deletes id)
    (hseqno : t.writer.memtable.nextSeqno ≤ t'.writer.memtable.nextSeqno)
    (hmemtable : ∀ seqno ∈ t'.writer.memtable.liveSeqnos, seqno ∈ t.writer.memtable.liveSeqnos) : t.Ages t' := by
  refine ⟨fun id hgiven => ?_, fun id hgiven hlive => ?_⟩
  · cases id with
    | segment id position => exact Nat.lt_of_lt_of_le hgiven hnext.next
    | memtable seqno => exact Nat.lt_of_lt_of_le hgiven hseqno
  · cases id with
    | segment id position =>
        obtain ⟨entry, hentry, hlt, hkept⟩ := hlive
        obtain ⟨hmem, rfl⟩ := Manifest.Numbered.mem_of_segment hentry
        rcases hnext.listed entry hmem with ⟨old, hold, hbody⟩ | hnew
        · obtain ⟨hid, -, -, hcount⟩ := SegmentEntry.eq_of_body hbody
          refine ⟨old, hid ▸ h.numbered.segment_of_mem hold, hcount ▸ hlt, ?_⟩
          rw [← hdeletes _ (hretired entry hmem)]
          exact hkept
        · exact absurd hgiven (Nat.not_lt.mpr hnew)
    | memtable seqno => exact hmemtable seqno hlive

omit [DecidableEq τ] in
theorem commit_retires {f f' : TableFile M} {m : Manifest} {ids : List SegmentId} {sources : List SegmentEntry}
    (h : f.commit (m.retire ids sources) = .ok f') : ∀ entry ∈ f'.committed.manifest.segments, entry.segmentId ∉ ids := by
  obtain ⟨-, -, -, -, hsegments, -⟩ := TableFile.commit_stamps h
  intro entry hentry
  rw [hsegments, Manifest.segments_retire] at hentry
  exact of_decide_eq_true (List.mem_filter.mp hentry).2

theorem compactLocked_ages (h : t.Tidy) {rewrite : Rewrite τ ν} {rows : Nat}
    (hsources : rewrite.sources.map SegmentEntry.segmentId = rewrite.ids)
    (hok : t.compactLocked env rewrite = .ok (rows, t')) : t.Ages t' := by
  rcases compactLocked_ok hok with ⟨-, rfl⟩ | ⟨groups, pending, f, -, -, hpending, hcommit, rfl⟩
  · exact .refl t'
  · have hbegin : t.writer.file.committed.manifest.Succeeds t.writer.file.beginManifest := .of_segments rfl rfl
    have hlists := (hbegin.trans (writeSegments_succeeds hpending)).trans (.retire _ rewrite.ids rewrite.sources)
    rw [Writer.forgetAll_eq, hsources]
    exact .retires h (TableFile.commit_lists hlists hcommit) (commit_retires hcommit) (fun id hid => if_neg hid) le_rfl
      fun _ hlive => hlive

omit [DecidableEq τ] in
theorem deleteSegments_ages (h : t.Tidy) {segmentIds : List SegmentId} {deleted : Nat}
    (hkeeps : t.droppedRows segmentIds ≠ 0 ∨ t.NoneDeleted ((t.dropped segmentIds).map SegmentEntry.segmentId))
    (hok : t.deleteSegments segmentIds = .ok (deleted, t')) : t.Ages t' := by
  rcases deleteSegments_ok hok with ⟨hzero, rfl⟩ | ⟨-, f, hcommit, rfl⟩
  · have hnone := hkeeps.resolve_left fun hsome => hsome hzero
    have hsame := forgetAll_of_none hnone t.writer.file.io
    change ({ t with writer := t.writer.forgetAll _ } : Table M) = t at hsame
    rw [hsame]
    exact .refl t
  · have hbegin : t.writer.file.committed.manifest.Succeeds t.writer.file.beginManifest := .of_segments rfl rfl
    have hlists := hbegin.trans (.retire _ segmentIds (t.dropped segmentIds))
    rw [Writer.forgetAll_eq]
    refine .retires h (TableFile.commit_lists hlists hcommit) (commit_retires hcommit) (fun id hid => if_neg fun hmem => ?_)
      le_rfl fun _ hlive => hlive
    obtain ⟨entry, hentry, rfl⟩ := List.mem_map.mp hmem
    exact hid (of_decide_eq_true (List.mem_filter.mp hentry).2)

theorem commitSchema_ages (h : t.Tidy) {before after : TableSchema τ} {rewrite : Bool} {s : Snapshot τ ν}
    (hok : t.commitSchema env before after rewrite s = .ok t') : t.Ages t' := by
  obtain ⟨-, extent, file, -, ⟨-, f, hcommit, rfl⟩ | ⟨-, pending, f, hpending, hcommit, rfl⟩⟩ := commitSchema_ok hok
  · have hlists : t.writer.file.committed.manifest.Succeeds { t.writer.file.beginManifest with schema := extent } :=
      .of_segments rfl rfl
    exact .lists h (TableFile.commit_lists hlists hcommit) (fun _ _ hmem => hmem) le_rfl fun _ hlive _ => hlive
  · have hbegin : t.writer.file.committed.manifest.Succeeds { t.writer.file.beginManifest with schema := extent } :=
      .of_segments rfl rfl
    have hlists := (hbegin.trans (convertSegments_succeeds hpending)).trans
      (.retire _ (s.liveSegments.map SegmentEntry.segmentId) s.liveSegments)
    rw [Writer.forgetAll_eq]
    exact .retires h (TableFile.commit_lists hlists hcommit) (commit_retires hcommit) (fun id hid => if_neg hid) le_rfl
      fun _ hlive => hlive

theorem setSchemaLocked_ages (h : t.Tidy) {before after : TableSchema τ} {rewrite : Bool} {s : Snapshot τ ν}
    (hok : t.setSchemaLocked env before after rewrite s = .ok t') : t.Ages t' := by
  obtain ⟨t₁, hchange, rfl⟩ := setSchemaLocked_ok hok
  obtain ⟨hgiven, hdead⟩ := commitSchema_ages h hchange
  refine ⟨fun id hid => hgiven id hid, fun id hid hlive => ?_⟩
  cases id with
  | segment id position => exact hdead _ hid hlive
  | memtable seqno => cases hlive

omit [DecidableEq τ] in
theorem SameMemory.ages (h : t.SameMemory t') : t.Ages t' := by
  refine ⟨fun id hgiven => ?_, fun id _ hlive => ?_⟩
  · cases id with
    | segment id position =>
        dsimp only [Given] at hgiven ⊢
        rw [h.manifest]
        exact hgiven
    | memtable seqno =>
        dsimp only [Given] at hgiven ⊢
        rw [h.memtable]
        exact hgiven
  · cases id with
    | segment id position =>
        dsimp only [Live] at hlive ⊢
        rw [h.manifest, h.deletes] at hlive
        exact hlive
    | memtable seqno =>
        dsimp only [Live] at hlive ⊢
        rw [h.memtable] at hlive
        exact hlive

/-- Whatever goes on after a failure, a row that is gone stays gone. -/
theorem Follows.ages (hstep : Follows env t t') (h : t.Tidy) : t.Ages t' := by
  cases hstep with
  | insert batches hok =>
      rcases (insertLocked_ok hok).2 with ⟨-, rfl⟩ | ⟨-, -, happend⟩
      · exact .refl t'
      · exact appendRows_ages h happend
  | delete segmentDeletions memtableSeqnos hok => exact delete_ages h hok
  | update segmentDeletions memtableSeqnos replacements hok =>
      rcases updateLocked_ok hok with ⟨rfl, -⟩ | ⟨-, hreplace⟩
      · exact .refl t'
      · exact replaceRows_ages h hreplace
  | flush hok => exact flushLocked_ages h hok
  | compact ids hids hread hok => exact compactLocked_ages h (compactRead_sources hread) hok
  | deleteSegments segmentIds hkeeps hok => exact deleteSegments_ages h hkeeps hok
  | setSchema after rewrite hok => exact setSchemaLocked_ages h hok
  | pin =>
      have hsame : t.SameMemory t.pin := ⟨rfl, rfl, rfl, rfl⟩
      exact hsame.ages
  | unpin index =>
      have hsame : t.SameMemory (t.unpin index) := ⟨rfl, rfl, rfl, rfl⟩
      exact hsame.ages
  | fails call hfails hharmless => exact (hfails.same_iff.mpr hharmless).ages

theorem Follows.current (hstep : Follows env t t') :
    t'.current = t.current ∨ t'.current = t'.writer.snapshot t'.schema := by
  cases hstep with
  | insert batches hok => exact (Locked.insert batches hok).current
  | delete segmentDeletions memtableSeqnos hok => exact (Locked.delete segmentDeletions memtableSeqnos hok).current
  | update segmentDeletions memtableSeqnos replacements hok =>
      exact (Locked.update segmentDeletions memtableSeqnos replacements hok).current
  | flush hok => exact (Locked.flush hok).current
  | compact ids hids hread hok => exact (Locked.compact ids hids hread hok).current
  | deleteSegments segmentIds hkeeps hok =>
      have hlocked : Locked env t t' := .deleteSegments segmentIds hok
      exact hlocked.current
  | setSchema after rewrite hok =>
      obtain ⟨t₁, -, rfl⟩ := setSchemaLocked_ok hok
      exact .inr rfl
  | pin => exact .inl rfl
  | unpin index => exact .inl rfl
  | fails call hfails hharmless =>
      obtain ⟨io, rfl⟩ := hfails.eq_withIo hharmless
      exact .inl rfl

/-- A state at which a snapshot may be published: between calls, or inside a schema change that has committed and has still
to adopt its schema. -/
def Reaches (env : Env τ ν) (t t' : Table M) : Prop :=
  Relation.ReflTransGen (Follows env) t t' ∨ ∃ t₁ after rewrite, Relation.ReflTransGen (Follows env) t t₁ ∧
    t₁.commitSchema env t₁.schema after rewrite t₁.current = .ok t'

theorem Upkept.tidy (hrun : Upkept env t) : t.Tidy := by
  induction hrun with
  | create schema fingerprint newTableUuid h =>
      have hreachable : Reachable env _ := .create schema fingerprint newTableUuid h
      exact hreachable.tidy
  | step _ hstep ih => exact hstep.tidy ih

theorem follows_ages (h : t.Tidy) (hrun : Relation.ReflTransGen (Follows env) t t') : t'.Tidy ∧ t.Ages t' := by
  induction hrun with
  | refl => exact ⟨h, .refl t⟩
  | tail _ hstep ih => exact ⟨hstep.tidy ih.1, ih.2.trans (hstep.ages ih.1)⟩

theorem Reaches.ages (h : t.Tidy) (hreaches : t.Reaches env t') : t.Ages t' := by
  rcases hreaches with hrun | ⟨t₁, after, rewrite, hrun, hcommit⟩
  · exact (follows_ages h hrun).2
  · obtain ⟨htidy, hages⟩ := follows_ages h hrun
    exact hages.trans (commitSchema_ages htidy hcommit)

/-- What readers are shown was published before, or is the writer's state at a moment since. -/
theorem Reaches.current (hreaches : t.Reaches env t') : t'.current = t.current ∨
    ∃ t₁, t.Reaches env t₁ ∧ t'.current = t₁.writer.snapshot t₁.schema := by
  rcases hreaches with hrun | ⟨t₁, after, rewrite, hrun, hcommit⟩
  · induction hrun with
    | refl => exact .inl rfl
    | @tail mid last hrun hstep ih =>
        rcases hstep.current with hsame | hpublished
        · rw [hsame]
          exact ih
        · exact .inr ⟨last, .inl (hrun.tail hstep), hpublished⟩
  · refine .inr ⟨t', .inr ⟨t₁, after, rewrite, hrun, hcommit⟩, ?_⟩
    obtain ⟨-, extent, file, -, ⟨-, f, -, rfl⟩ | ⟨-, pending, f, -, -, rfl⟩⟩ := commitSchema_ok hcommit
    · rfl
    · rfl

/-- A failed compaction, drop or rewrite leaves what the writer has in memory as it was exactly when it is harmless. Then no
snapshot that is published since shows a row that was deleted before. -/
theorem failed_upkeep_keeps_deletes {call : Upkeep τ ν} {retired : List SegmentId} (hrun : Upkept env t)
    (hfails : call.Fails env t retired t') : (t.SameMemory t' ↔ call.Harmless t retired) ∧
      (call.Harmless t retired → ∀ t₁, t'.Reaches env t₁ → (∀ id, t.Given id → ¬t.Live id → ¬t₁.Live id) ∧
        (t₁.current = t.current ∨ ∃ t₂, t'.Reaches env t₂ ∧ t₁.current = t₂.writer.snapshot t₂.schema)) := by
  refine ⟨hfails.same_iff, fun hharmless t₁ hreaches => ?_⟩
  obtain ⟨io, rfl⟩ := hfails.eq_withIo hharmless
  have hages : (t.withIo io).Ages t₁ := hreaches.ages (hrun.tidy.withIo io)
  have hwhole : t.Ages t₁ := (hfails.same_iff.mpr hharmless).ages.trans hages
  exact ⟨fun id hgiven hdead hlive => hdead (hwhole.dead id hgiven hlive), hreaches.current⟩

end Follows

section Lost

def faultEnv : Env Unit Nat :=
  plainEnv plainOptions [.insert 1 0 ⟨[()], [[7], [8]]⟩, .delete 2 [⟨0, {0}⟩] [], .insert 3 2 ⟨[()], [[9]]⟩,
    .insert 2 2 ⟨[()], [[5], [6]]⟩, .delete 3 [⟨1, {0}⟩] []]

/-- A table of one segment with two rows, some of them deleted. -/
def deletedTable (deletions : List (SegmentId × List Nat)) : Except Error PlainTable := do
  let t₀ ← Table.create faultEnv (Journal plainSizes) plainSchema (fun _ => 0) (fun _ => []) none
  let (_, t₁) ← t₀.insertLocked faultEnv [⟨plainSchema.fields, [[7], [8]]⟩]
  let (_, t₂) ← t₁.flushLocked faultEnv
  let (_, t) ← t₂.delete faultEnv deletions []
  return t

/-- A compaction of the segment whose commit writes nothing and fails. -/
def failedCompaction (t : PlainTable) : Except Error (Rewrite Unit Nat × PlainTable) := do
  let rewrite ← t.compactRead faultEnv [0]
  let groups ← rowGroups faultEnv rewrite.live (faultEnv.options.rowGroupSizeFor
    (max t.writer.file.beginManifest.totalRows (totalRows rewrite.live))) t.schema.schema t.schema.clusterColumns
  let pending ← groups.foldlM (writeSegment faultEnv t.schema t.minActiveTxn)
    ⟨t.writer.file.io, t.writer.file.beginManifest⟩
  if t.isStale rewrite then throw (.invalidArgument "the rewrite is stale")
  else
    let t' := t.withIo pending.io
    return (rewrite, t'.withWriter (t'.writer.forgetAll (rewrite.sources.map SegmentEntry.segmentId)))

theorem deletedTable_upkept {deletions : List (SegmentId × List Nat)} {t : PlainTable} (h : deletedTable deletions = .ok t) :
    Upkept faultEnv t := by
  obtain ⟨t₀, hcreate, h⟩ := bind_eq_ok.mp h
  obtain ⟨⟨_, t₁⟩, hinsert, h⟩ := bind_eq_ok.mp h
  obtain ⟨⟨_, t₂⟩, hflush, h⟩ := bind_eq_ok.mp h
  obtain ⟨⟨_, t₃⟩, hdelete, h⟩ := bind_eq_ok.mp h
  obtain rfl := Except.ok.inj h
  exact .step (.step (.step (.create _ _ _ hcreate) (.insert _ hinsert)) (.flush hflush)) (.delete _ _ hdelete)

theorem failedCompaction_fails {t t' : PlainTable} {rewrite : Rewrite Unit Nat}
    (h : failedCompaction t = .ok (rewrite, t')) :
    (Upkeep.compactRun rewrite).Fails faultEnv t (rewrite.sources.map SegmentEntry.segmentId) t' := by
  obtain ⟨rewrite', -, h⟩ := bind_eq_ok.mp h
  obtain ⟨groups, hgroups, h⟩ := bind_eq_ok.mp h
  obtain ⟨pending, hpending, h⟩ := bind_eq_ok.mp h
  obtain ⟨hfresh, h⟩ := ite_throw_eq_ok.mp h
  obtain ⟨rfl, rfl⟩ := Prod.mk.inj (Except.ok.inj h)
  exact .commit hfresh hgroups hpending ⟨pending.io.file, .stop _ _, rfl⟩

/-- The rows readers are shown. -/
def shownRows (t : PlainTable) : Option (List (Row Nat)) :=
  match scanTable faultEnv t.writer.file.io.file t.current with
  | .ok batches => some (rowsOf batches)
  | .error _ => none

/-- A table of two segments, where a row of the second is deleted. -/
def besideDeleted : Except Error PlainTable := do
  let t₀ ← Table.create faultEnv (Journal plainSizes) plainSchema (fun _ => 0) (fun _ => []) none
  let (_, t₁) ← t₀.insertLocked faultEnv [⟨plainSchema.fields, [[7], [8]]⟩]
  let (_, t₂) ← t₁.flushLocked faultEnv
  let (_, t₃) ← t₂.insertLocked faultEnv [⟨plainSchema.fields, [[5], [6]]⟩]
  let (_, t₄) ← t₃.flushLocked faultEnv
  let (_, t) ← t₄.delete faultEnv [(1, [0])] []
  return t

theorem besideDeleted_upkept {t : PlainTable} (h : besideDeleted = .ok t) : Upkept faultEnv t := by
  obtain ⟨t₀, hcreate, h⟩ := bind_eq_ok.mp h
  obtain ⟨⟨_, t₁⟩, hinsert, h⟩ := bind_eq_ok.mp h
  obtain ⟨⟨_, t₂⟩, hflush, h⟩ := bind_eq_ok.mp h
  obtain ⟨⟨_, t₃⟩, hinsert', h⟩ := bind_eq_ok.mp h
  obtain ⟨⟨_, t₄⟩, hflush', h⟩ := bind_eq_ok.mp h
  obtain ⟨⟨_, t₅⟩, hdelete, h⟩ := bind_eq_ok.mp h
  obtain rfl := Except.ok.inj h
  have hfirst : Upkept faultEnv t₂ := .step (.step (.create _ _ _ hcreate) (.insert _ hinsert)) (.flush hflush)
  exact .step (.step (.step hfirst (.insert _ hinsert')) (.flush hflush')) (.delete _ _ hdelete)

/-- A segment without deletions has none to lose, and what is deleted beside it stays so. -/
theorem failed_compaction_of_undeleted : ∃ (t t' : PlainTable) (rewrite : Rewrite Unit Nat),
    rewrite.sources.map SegmentEntry.segmentId = [0] ∧ (Upkeep.compactRun rewrite).Fails faultEnv t [0] t' ∧
      t.writer.deletes 1 = some {0} ∧ t.SameMemory t' ∧ ∀ t₁, t'.Reaches faultEnv t₁ → ¬t₁.Live (.segment 1 0) := by
  have hcheck : (match (do
      let t ← besideDeleted
      let (rewrite, t') ← failedCompaction t
      return (t, rewrite, t') : Except Error _) with
      | .ok (t, rewrite, _) => decide (rewrite.sources.map SegmentEntry.segmentId = [0] ∧ t.writer.deletes 0 = none ∧
          0 ∉ t.writer.dirtyDeletes ∧ t.writer.deletes 1 = some {0} ∧
          1 < t.writer.file.committed.manifest.nextSegmentId)
      | .error _ => false) = true := by decide +kernel
  cases htable : besideDeleted with
  | error e =>
      rw [htable] at hcheck
      cases hcheck
  | ok t =>
      cases hfailed : failedCompaction t with
      | error e =>
          simp only [htable, hfailed, bind, Except.bind] at hcheck
          cases hcheck
      | ok result =>
          obtain ⟨rewrite, t'⟩ := result
          simp only [htable, hfailed, bind, Except.bind, pure, Except.pure] at hcheck
          obtain ⟨hsources, hnone, hclean, hdeleted, hnext⟩ := of_decide_eq_true hcheck
          have hfails := failedCompaction_fails hfailed
          rw [hsources] at hfails
          have hharmless : t.NoneDeleted [0] := by
            intro id hid
            rw [List.mem_singleton.mp hid]
            exact ⟨hnone, hclean⟩
          obtain ⟨hsame, hlater⟩ := failed_upkeep_keeps_deletes (besideDeleted_upkept htable) hfails
          refine ⟨t, t', rewrite, hsources, hfails, hdeleted, hsame.mpr hharmless, fun t₁ hreaches => ?_⟩
          refine (hlater hharmless t₁ hreaches).1 (.segment 1 0) hnext ?_
          rintro ⟨_, -, -, hlive⟩
          rw [hdeleted] at hlive
          exact hlive (Finset.mem_singleton_self 0)

/-- With one, the failed compaction forgets it, and the next insert shows the deleted row again. -/
theorem failed_compaction_loses_delete : ∃ (t t' t₁ : PlainTable) (rewrite : Rewrite Unit Nat) (retired : List SegmentId),
    Upkept faultEnv t ∧ (Upkeep.compactRun rewrite).Fails faultEnv t retired t' ∧ ¬t.SameMemory t' ∧
      t.Given (.segment 0 0) ∧ ¬t.Live (.segment 0 0) ∧ shownRows t = some [[8]] ∧
      t'.Reaches faultEnv t₁ ∧ t₁.Live (.segment 0 0) ∧ shownRows t₁ = some [[7], [8], [9]] := by
  have hcheck : (match (do
      let t ← deletedTable [(0, [0])]
      let (rewrite, t') ← failedCompaction t
      let (_, t₁) ← t'.insertLocked faultEnv [⟨plainSchema.fields, [[9]]⟩]
      return (t, rewrite, t', t₁) : Except Error _) with
      | .ok (t, _, t', t₁) => decide (t.writer.deletes 0 = some {0} ∧ t'.writer.deletes 0 = none ∧
          0 < t.writer.file.committed.manifest.nextSegmentId ∧ shownRows t = some [[8]] ∧
          t₁.writer.deletes 0 = none ∧ ((t₁.writer.file.committed.manifest.segment 0).map SegmentEntry.rowCount) = some 2 ∧
          shownRows t₁ = some [[7], [8], [9]])
      | .error _ => false) = true := by decide +kernel
  cases htable : deletedTable [(0, [0])] with
  | error e =>
      rw [htable] at hcheck
      cases hcheck
  | ok t =>
      cases hfailed : failedCompaction t with
      | error e =>
          simp only [htable, hfailed, bind, Except.bind] at hcheck
          cases hcheck
      | ok result =>
          obtain ⟨rewrite, t'⟩ := result
          cases hinsert : t'.insertLocked faultEnv [⟨plainSchema.fields, [[9]]⟩] with
          | error e =>
              simp only [htable, hfailed, hinsert, bind, Except.bind] at hcheck
              cases hcheck
          | ok inserted =>
              obtain ⟨rows, t₁⟩ := inserted
              simp only [htable, hfailed, hinsert, bind, Except.bind, pure, Except.pure] at hcheck
              obtain ⟨hdeleted, hlost, hnext, hbefore, hgone, hsegment, hafter⟩ := of_decide_eq_true hcheck
              obtain ⟨entry, hentry, hrows⟩ := Option.map_eq_some_iff.mp hsegment
              refine ⟨t, t', t₁, rewrite, _, deletedTable_upkept htable, failedCompaction_fails hfailed, fun hsame => ?_,
                hnext, ?_, hbefore, .inl (.single (.insert _ hinsert)), ⟨entry, hentry, by omega, by simp [hgone]⟩, hafter⟩
              · have := congrFun hsame.deletes 0
                rw [hdeleted, hlost] at this
                cases this
              · rintro ⟨_, -, -, hlive⟩
                rw [hdeleted] at hlive
                exact hlive (Finset.mem_singleton_self 0)

end Lost

end Table

end LocalTables
