import LocalTables.Table.Maintain

/-! What each operation of the table does, read off its definition once: the early returns, the parts
that can fail, and the state it leaves. -/

namespace LocalTables

variable {τ ν : Type} {M : Media τ ν}

section Writes

variable {env : Env τ ν} {current : TableSchema τ} {minActive : Nat} {p p' : Pending M}

/-- A segment write: nothing for an empty group, otherwise the built segment at a fresh extent. -/
theorem writeSegment_ok [DecidableEq τ] {batches : List (RecordBatch τ ν)}
    (h : Table.writeSegment env current minActive p batches = .ok p') :
    totalRows batches = 0 ∧ p' = p ∨
      ∃ data e m io, totalRows batches ≠ 0 ∧
        Table.buildSegment env p.manifest.nextSegmentId current batches = .ok data ∧
        writeAllocated p.io p.manifest (.segment data) segmentAlign minActive = .ok (e, m, io) ∧
        p' = ⟨io, m.addSegment e ⟨e.offset + (M.metaExtent data).offset, (M.metaExtent data).len⟩ data.rows.length⟩ := by
  unfold Table.writeSegment at h
  split at h
  · next hzero => exact .inl ⟨hzero, (Except.ok.inj h).symm⟩
  · next hsome =>
      obtain ⟨data, hbuild, h⟩ := bind_eq_ok.mp h
      obtain ⟨⟨e, m, io⟩, hwrite, h⟩ := bind_eq_ok.mp h
      exact .inr ⟨data, e, m, io, hsome, hbuild, hwrite, (Except.ok.inj h).symm⟩

/-- A bitmap write: nothing when the segment has no deletions or is gone. -/
theorem writeBitmap_ok {deletes : SegmentId → Option (Finset Nat)} {id : SegmentId}
    (h : Table.writeBitmap deletes minActive p id = .ok p') :
    (deletes id = none ∨ p.manifest.segment id = none) ∧ p' = p ∨
      ∃ rows entry e m io, deletes id = some rows ∧ p.manifest.segment id = some entry ∧
        writeAllocated p.io p.manifest (.deletes rows) bufferAlign minActive = .ok (e, m, io) ∧
        p' = ⟨io, m.replaceDeletes id entry.deletes e rows.card⟩ := by
  unfold Table.writeBitmap at h
  split at h
  · next hnone => exact .inl ⟨.inl hnone, (Except.ok.inj h).symm⟩
  · next rows hrows =>
      split at h
      · next hgone => exact .inl ⟨.inr hgone, (Except.ok.inj h).symm⟩
      · next entry hentry =>
          obtain ⟨⟨e, m, io⟩, hwrite, h⟩ := bind_eq_ok.mp h
          exact .inr ⟨rows, entry, e, m, io, hrows, hentry, hwrite, (Except.ok.inj h).symm⟩

end Writes

theorem Writer.forgetAll_eq (w : Writer M) (ids : List SegmentId) :
    w.forgetAll ids = { w with
      deletes := fun id => if id ∈ ids then none else w.deletes id
      dirtyDeletes := ids.foldl List.erase w.dirtyDeletes } := by
  induction ids generalizing w with
  | nil => simp [Writer.forgetAll]
  | cons id ids ih =>
      have hstep : w.forgetAll (id :: ids) = (w.forget id).forgetAll ids := rfl
      rw [hstep, ih]
      simp only [Writer.forget, List.foldl_cons, List.mem_cons]
      congr 1
      funext other
      by_cases hother : other = id
      · simp [hother]
      · simp [hother]

/-- The deletions after these bitmaps have been recorded, the later ones winning. -/
def markDeletes (deletes : SegmentId → Option (Finset Nat)) (segments : List (SegmentId × Finset Nat)) :
    SegmentId → Option (Finset Nat) :=
  segments.foldl (fun deletes (id, rows) => Function.update deletes id (some rows)) deletes

def markDirty (dirty : List SegmentId) (segments : List (SegmentId × Finset Nat)) : List SegmentId :=
  segments.foldl (fun dirty (id, _) => dirty.insert id) dirty

theorem Writer.markAll_eq (w : Writer M) (segments : List (SegmentId × Finset Nat)) :
    segments.foldl (fun w (id, rows) => w.mark id rows) w = { w with
      deletes := markDeletes w.deletes segments
      dirtyDeletes := markDirty w.dirtyDeletes segments } := by
  induction segments generalizing w with
  | nil => rfl
  | cons segment segments ih =>
      rw [List.foldl_cons, ih]
      rfl

theorem applyDeletes_snd (w : Writer M) (planned : PlannedDeletes) :
    (applyDeletes w planned).2 = { w with
      deletes := markDeletes w.deletes planned.segments
      dirtyDeletes := markDirty w.dirtyDeletes planned.segments
      memtable := (w.memtable.delete planned.memtable).2 } := by
  unfold applyDeletes
  rw [Writer.markAll_eq]

namespace Table

variable {env : Env τ ν} {t t' : Table M}

theorem commit_ok {m : Manifest} (h : t.commit m = .ok t') :
    ∃ f, t.writer.file.commit m = .ok f ∧ t' = publish { t with writer := { t.writer with file := f } } := by
  obtain ⟨f, hf, h⟩ := bind_eq_ok.mp h
  exact ⟨f, hf, (Except.ok.inj h).symm⟩

theorem checkFields_ok [DecidableEq τ] {batches : List (RecordBatch τ ν)} {u : Unit}
    (h : t.checkFields batches = .ok u) : ∀ batch ∈ batches, batch.fields = t.schema.schema.fields := by
  unfold checkFields at h
  split at h
  · next hall => simpa using hall
  · cases h

/-- Everything an insert does under the lock. -/
theorem appendRows_ok {batches : List (RecordBatch τ ν)} (h : t.appendRows env batches = .ok t') :
    ∃ frames wal,
      (planInserts t.writer.nextLsn t.writer.memtable.nextSeqno batches).1.mapM (encodeRecord env) = .ok frames ∧
      t.writer.wal.appendGroup frames = .ok wal ∧
      t' = publish { t with writer := { t.writer with
        wal := wal
        memtable := (planInserts t.writer.nextLsn t.writer.memtable.nextSeqno batches).2.foldl
          (fun memtable (seqno, batch) => memtable.insertAt env seqno batch) t.writer.memtable
        nextLsn := t.writer.nextLsn +
          (planInserts t.writer.nextLsn t.writer.memtable.nextSeqno batches).1.length } } := by
  obtain ⟨frames, hframes, h⟩ := bind_eq_ok.mp h
  obtain ⟨wal, hwal, h⟩ := bind_eq_ok.mp h
  exact ⟨frames, wal, hframes, hwal, (Except.ok.inj h).symm⟩

/-- Everything an insert does before it looks at the limits. -/
theorem insertLocked_ok [DecidableEq τ] {batches : List (RecordBatch τ ν)} {rows : Nat}
    (h : t.insertLocked env batches = .ok (rows, t')) :
    rows = totalRows batches ∧ (totalRows batches = 0 ∧ t' = t ∨
      totalRows batches ≠ 0 ∧ (∀ batch ∈ batches, batch.fields = t.schema.schema.fields) ∧
        t.appendRows env batches = .ok t') := by
  unfold insertLocked at h
  dsimp only at h
  split at h
  · next hzero =>
      obtain ⟨rfl, rfl⟩ := Prod.mk.inj (Except.ok.inj h)
      exact ⟨hzero.symm, .inl ⟨hzero, rfl⟩⟩
  · next hsome =>
      obtain ⟨_, hcheck, h⟩ := bind_eq_ok.mp h
      obtain ⟨t₁, happend, h⟩ := bind_eq_ok.mp h
      obtain ⟨rfl, rfl⟩ := Prod.mk.inj (Except.ok.inj h)
      exact ⟨rfl, .inr ⟨hsome, checkFields_ok hcheck, happend⟩⟩

/-- Everything a delete does. -/
theorem delete_ok {segmentDeletions : List (SegmentId × List Nat)} {memtableSeqnos : List Nat} {deleted : Nat}
    (h : t.delete env segmentDeletions memtableSeqnos = .ok (deleted, t')) :
    t' = t ∧ (segmentDeletions = [] ∧ memtableSeqnos = [] ∨
        ∃ planned, planDeletes t.writer segmentDeletions memtableSeqnos = .ok planned ∧ planned.isEmpty) ∨
      ∃ planned frame wal, planDeletes t.writer segmentDeletions memtableSeqnos = .ok planned ∧
        encodeRecord env (.delete t.writer.nextLsn planned.loggedSegments planned.memtable) = .ok frame ∧
        t.writer.wal.appendGroup [frame] = .ok wal ∧
        t' = publish { t with writer :=
          (applyDeletes { t.writer with wal := wal, nextLsn := t.writer.nextLsn + 1 } planned).2 } := by
  unfold delete at h
  dsimp only at h
  split at h
  · next hnone =>
      obtain ⟨-, rfl⟩ := Prod.mk.inj (Except.ok.inj h)
      exact .inl ⟨rfl, .inl (by simpa using hnone)⟩
  · obtain ⟨planned, hplanned, h⟩ := bind_eq_ok.mp h
    split at h
    · next hempty =>
        obtain ⟨-, rfl⟩ := Prod.mk.inj (Except.ok.inj h)
        exact .inl ⟨rfl, .inr ⟨planned, hplanned, hempty⟩⟩
    · obtain ⟨frame, hframe, h⟩ := bind_eq_ok.mp h
      obtain ⟨wal, hwal, h⟩ := bind_eq_ok.mp h
      obtain ⟨-, rfl⟩ := Prod.mk.inj (Except.ok.inj h)
      exact .inr ⟨planned, frame, wal, hplanned, hframe, hwal, rfl⟩

/-- Everything an update does under the lock. -/
theorem replaceRows_ok [DecidableEq τ] {segmentDeletions : List (SegmentId × List Nat)} {memtableSeqnos : List Nat}
    {replacements : List (RecordBatch τ ν)} {rows : Nat}
    (h : t.replaceRows env segmentDeletions memtableSeqnos replacements = .ok (rows, t')) :
    ∃ planned, planDeletes t.writer segmentDeletions memtableSeqnos = .ok planned ∧
      (t' = t ∧ totalRows replacements = 0 ∧ planned.isEmpty ∨
        ∃ merged frame wal, t.mergeReplacements replacements = .ok merged ∧
          encodeRecord env (.update t.writer.nextLsn planned.loggedSegments planned.memtable
            t.writer.memtable.nextSeqno (encodeBatch (merged.getD ⟨t.schema.schema.fields, []⟩))) = .ok frame ∧
          t.writer.wal.appendGroup [frame] = .ok wal ∧
          t' = publish { t with writer :=
            let w := (applyDeletes { t.writer with wal := wal, nextLsn := t.writer.nextLsn + 1 } planned).2
            { w with memtable := match merged with
              | some batch => w.memtable.insertAt env t.writer.memtable.nextSeqno batch
              | none => w.memtable } }) := by
  obtain ⟨planned, hplanned, h⟩ := bind_eq_ok.mp h
  refine ⟨planned, hplanned, ?_⟩
  split at h
  · next hempty =>
      obtain ⟨-, rfl⟩ := Prod.mk.inj (Except.ok.inj h)
      exact .inl ⟨rfl, hempty.2, hempty.1⟩
  · obtain ⟨merged, hmerged, h⟩ := bind_eq_ok.mp h
    obtain ⟨frame, hframe, h⟩ := bind_eq_ok.mp h
    obtain ⟨wal, hwal, h⟩ := bind_eq_ok.mp h
    obtain ⟨-, rfl⟩ := Prod.mk.inj (Except.ok.inj h)
    exact .inr ⟨merged, frame, wal, hmerged, hframe, hwal, rfl⟩

/-- Everything an update does before it looks at the limits. -/
theorem updateLocked_ok [DecidableEq τ] {segmentDeletions : List (SegmentId × List Nat)} {memtableSeqnos : List Nat}
    {replacements : List (RecordBatch τ ν)} {rows : Nat}
    (h : t.updateLocked env segmentDeletions memtableSeqnos replacements = .ok (rows, t')) :
    t' = t ∧ totalRows replacements = 0 ∧ segmentDeletions = [] ∧ memtableSeqnos = [] ∨
      (∀ batch ∈ replacements, batch.fields = t.schema.schema.fields) ∧
        t.replaceRows env segmentDeletions memtableSeqnos replacements = .ok (rows, t') := by
  unfold updateLocked at h
  dsimp only at h
  split at h
  · next hnone =>
      obtain ⟨-, rfl⟩ := Prod.mk.inj (Except.ok.inj h)
      simp only [List.isEmpty_iff] at hnone
      exact .inl ⟨rfl, hnone.2.2, hnone.1, hnone.2.1⟩
  · obtain ⟨_, hcheck, h⟩ := bind_eq_ok.mp h
    exact .inr ⟨checkFields_ok hcheck, h⟩

/-- The writer once a flush has frozen the memtable. -/
def frozenWriter (t : Table M) : Writer M :=
  { t.writer with memtable := t.writer.memtable.freeze.2, dirtyDeletes := [] }

/-- What a flush takes out of the writer. -/
def frozen (env : Env τ ν) (t : Table M) : Frozen τ ν :=
  ⟨t.writer.memtable.freeze.1, env.drain t.writer.dirtyDeletes⟩

/-- The table of a flush past the rotation. -/
def rotated (t : Table M) : Table M :=
  { t with writer := { t.frozenWriter with wal := t.writer.wal.rotate.2 } }

/-- Everything a flush that returns has done. -/
theorem flushLocked_ok [DecidableEq τ] {rows : Nat} (h : t.flushLocked env = .ok (rows, t')) :
    (t.frozen env).isEmpty ∧ t' = { t with writer := t.frozenWriter } ∨
      ∃ pending f, ¬(t.frozen env).isEmpty ∧ t.rotated.writeStage env (t.frozen env) = .ok pending ∧
        TableFile.commit { t.writer.file with io := pending.io } pending.manifest = .ok f ∧
        t' = (publish { t with writer := { t.rotated.writer with file := f } }).truncateStage t.writer.wal.rotate.1 := by
  unfold flushLocked at h
  have hfreeze : t.freezeStage env = (t.frozen env, { t with writer := t.frozenWriter }) := rfl
  rw [hfreeze] at h
  dsimp only at h
  split at h
  · next hempty =>
      obtain ⟨-, rfl⟩ := Prod.mk.inj (Except.ok.inj h)
      exact .inl ⟨hempty, rfl⟩
  · next hsome =>
      have hrotate : rotateStage { t with writer := t.frozenWriter } = (t.writer.wal.rotate.1, t.rotated) := rfl
      rw [hrotate] at h
      dsimp only at h
      obtain ⟨pending, hpending, h⟩ := bind_eq_ok.mp h
      obtain ⟨t₁, hcommit, h⟩ := bind_eq_ok.mp h
      obtain ⟨-, rfl⟩ := Prod.mk.inj (Except.ok.inj h)
      obtain ⟨f, hf, rfl⟩ := commit_ok hcommit
      exact .inr ⟨pending, f, hsome, hpending, hf, rfl⟩

/-- The segments a call to `delete_segments` drops. -/
def dropped (t : Table M) (segmentIds : List SegmentId) : List SegmentEntry :=
  t.writer.file.committed.manifest.segments.filter fun entry => entry.segmentId ∈ segmentIds

/-- How many rows it deletes that were not deleted already. -/
def droppedRows (t : Table M) (segmentIds : List SegmentId) : Nat :=
  ((t.dropped segmentIds).map fun entry =>
    entry.rowCount - ((t.writer.deletes entry.segmentId).map fun rows => min rows.card entry.rowCount).getD 0).sum

theorem deleteSegments_ok {segmentIds : List SegmentId} {deleted : Nat}
    (h : t.deleteSegments segmentIds = .ok (deleted, t')) :
    t.droppedRows segmentIds = 0 ∧
        t' = { t with writer := t.writer.forgetAll ((t.dropped segmentIds).map SegmentEntry.segmentId) } ∨
      t.droppedRows segmentIds ≠ 0 ∧ ∃ f,
        t.writer.file.commit (t.writer.file.beginManifest.retire segmentIds (t.dropped segmentIds)) = .ok f ∧
        t' = publish { t with writer :=
          { t.writer.forgetAll ((t.dropped segmentIds).map SegmentEntry.segmentId) with file := f } } := by
  unfold deleteSegments at h
  dsimp only at h
  split at h
  · next hzero =>
      obtain ⟨-, rfl⟩ := Prod.mk.inj (Except.ok.inj h)
      exact .inl ⟨hzero, rfl⟩
  · next hsome =>
      obtain ⟨t₁, hcommit, h⟩ := bind_eq_ok.mp h
      obtain ⟨-, rfl⟩ := Prod.mk.inj (Except.ok.inj h)
      obtain ⟨f, hf, rfl⟩ := commit_ok hcommit
      rw [Writer.forgetAll_eq] at hf
      exact .inr ⟨hsome, f, hf, rfl⟩

/-- What the read half of a compaction returns. -/
theorem compactRead_ok {ids : List SegmentId} {rewrite : Rewrite τ ν} (h : t.compactRead env ids = .ok rewrite) :
    rewrite.ids = ids ∧ rewrite.snapshot = t.current ∧
      ∃ read, ids.mapM (t.readSource env) = .ok read ∧ rewrite.live = (read.map Prod.fst).flatten ∧
        rewrite.sources = read.map Prod.snd := by
  obtain ⟨read, hread, h⟩ := bind_eq_ok.mp h
  obtain rfl := Except.ok.inj h
  exact ⟨rfl, rfl, read, hread, rfl, rfl⟩

/-- Everything the locked half of a compaction does. -/
theorem compactLocked_ok [DecidableEq τ] {rewrite : Rewrite τ ν} {rows : Nat}
    (h : t.compactLocked env rewrite = .ok (rows, t')) :
    t.isStale rewrite ∧ t' = t ∨
      ∃ groups pending f, ¬t.isStale rewrite ∧
        rowGroups env rewrite.live (env.options.rowGroupSizeFor
          (max t.writer.file.beginManifest.totalRows (totalRows rewrite.live))) t.schema.schema
          t.schema.clusterColumns = .ok groups ∧
        groups.foldlM (writeSegment env t.schema t.minActiveTxn) ⟨t.writer.file.io, t.writer.file.beginManifest⟩ =
          .ok pending ∧
        TableFile.commit { t.writer.file with io := pending.io }
          (pending.manifest.retire rewrite.ids rewrite.sources) = .ok f ∧
        t' = publish { t with writer :=
          { t.writer.forgetAll (rewrite.sources.map SegmentEntry.segmentId) with file := f } } := by
  unfold compactLocked at h
  dsimp only at h
  split at h
  · next hstale =>
      obtain ⟨-, rfl⟩ := Prod.mk.inj (Except.ok.inj h)
      exact .inl ⟨hstale, rfl⟩
  · next hfresh =>
      obtain ⟨groups, hgroups, h⟩ := bind_eq_ok.mp h
      obtain ⟨pending, hpending, h⟩ := bind_eq_ok.mp h
      obtain ⟨t₁, hcommit, h⟩ := bind_eq_ok.mp h
      obtain ⟨-, rfl⟩ := Prod.mk.inj (Except.ok.inj h)
      obtain ⟨f, hf, rfl⟩ := commit_ok hcommit
      simp only [withWriter, withIo, Writer.forgetAll_eq] at hf ⊢
      exact .inr ⟨groups, pending, f, hfresh, hgroups, hpending, hf, rfl⟩

theorem writeGroups_ok {write : GroupWriter M} {P : Pending M → Prop}
    (hwrite : ∀ p batches p', P p → write p batches = .ok p' → P p') {groupRows : Nat} {schema : TableSchema τ}
    {p p' : Pending M} {batches : List (RecordBatch τ ν)} (hp : P p)
    (h : writeGroups env write groupRows schema p batches = .ok p') : P p' := by
  obtain ⟨groups, -, h⟩ := bind_eq_ok.mp h
  exact foldlM_ok hwrite hp h

theorem convertSegment_ok [DecidableEq τ] {write : GroupWriter M} {P : Pending M → Prop}
    (hwrite : ∀ p batches p', P p → write p batches = .ok p' → P p') {s : Snapshot τ ν} {before after : TableSchema τ}
    {groupRows : Nat} {entry : SegmentEntry} {c c' : Conversion M} (hc : P c.pending)
    (h : convertSegment env write s before after groupRows c entry = .ok c') : P c'.pending := by
  obtain ⟨read, -, h⟩ := bind_eq_ok.mp h
  obtain ⟨converted, -, h⟩ := bind_eq_ok.mp h
  dsimp only at h
  split at h
  · rw [← Except.ok.inj h]
    exact hc
  · obtain ⟨pending, hpending, h⟩ := bind_eq_ok.mp h
    rw [← Except.ok.inj h]
    exact writeGroups_ok hwrite hc hpending

/-- A conversion does nothing to the commit but write segments. -/
theorem convertSegments_ok [DecidableEq τ] {write : GroupWriter M} {P : Pending M → Prop}
    (hwrite : ∀ p batches p', P p → write p batches = .ok p' → P p') {s : Snapshot τ ν} {sources : List SegmentEntry}
    {before after : TableSchema τ} {p p' : Pending M} (hp : P p)
    (h : convertSegments env write s sources before after p = .ok p') : P p' := by
  obtain ⟨c, hc, h⟩ := bind_eq_ok.mp h
  refine writeGroups_ok hwrite ?_ h
  exact foldlM_ok (P := fun c : Conversion M => P c.pending) (fun _ _ _ hq hstep => convertSegment_ok hwrite hq hstep) hp hc

/-- Everything a schema change does under the lock, up to and with its commit. -/
theorem commitSchema_ok [DecidableEq τ] {before after : TableSchema τ} {rewrite : Bool} {s : Snapshot τ ν}
    (h : t.commitSchema env before after rewrite s = .ok t') :
    t.writer.memtable.isEmpty ∧ ∃ extent file, t.writer.file.writeSchema after.schema = .ok (extent, file) ∧
      (rewrite = false ∧ (∃ f, TableFile.commit { t.writer.file with io := file.io }
          { t.writer.file.beginManifest with schema := extent } = .ok f ∧
          t' = publish { t with writer := { t.writer with file := f } }) ∨
        rewrite = true ∧ ∃ pending f,
          convertSegments env (writeSegment env after t.minActiveTxn) s s.liveSegments before after
            ⟨file.io, { t.writer.file.beginManifest with schema := extent }⟩ = .ok pending ∧
          TableFile.commit { t.writer.file with io := pending.io }
            (pending.manifest.retire (s.liveSegments.map SegmentEntry.segmentId) s.liveSegments) = .ok f ∧
          t' = publish { t with writer := { t.writer.forgetAll (s.liveSegments.map SegmentEntry.segmentId) with
            file := f } }) := by
  unfold commitSchema at h
  obtain ⟨hempty, h⟩ := ite_throw_eq_ok.mp h
  obtain ⟨⟨extent, file⟩, hwrite, h⟩ := bind_eq_ok.mp h
  dsimp only at h
  refine ⟨by simpa using hempty, extent, file, hwrite, ?_⟩
  split at h
  · next hrewrite =>
      obtain ⟨pending, hpending, h⟩ := bind_eq_ok.mp h
      obtain ⟨f, hf, rfl⟩ := commit_ok h
      simp only [withWriter, withIo, Writer.forgetAll_eq] at hf ⊢
      exact .inr ⟨hrewrite, pending, f, hpending, hf, rfl⟩
  · next hkeep =>
      obtain ⟨f, hf, rfl⟩ := commit_ok h
      exact .inl ⟨by simpa using hkeep, f, hf, rfl⟩

theorem setSchemaLocked_ok [DecidableEq τ] {before after : TableSchema τ} {rewrite : Bool} {s : Snapshot τ ν}
    (h : t.setSchemaLocked env before after rewrite s = .ok t') :
    ∃ t₁, t.commitSchema env before after rewrite s = .ok t₁ ∧ t' = t₁.adoptSchema after := by
  obtain ⟨t₁, hcommit, h⟩ := bind_eq_ok.mp h
  exact ⟨t₁, hcommit, (Except.ok.inj h).symm⟩

theorem change_ok [DecidableEq τ] {c : Change τ} (h : t.change env c = .ok t') :
    c.plan env t.schema.schema = .ok none ∧ t' = t ∨ ∃ schema rewrite,
      c.plan env t.schema.schema = .ok (some (schema, rewrite)) ∧ t.setSchema env schema rewrite = .ok t' := by
  obtain ⟨planned, hplanned, h⟩ := bind_eq_ok.mp h
  split at h
  · exact .inl ⟨hplanned, (Except.ok.inj h).symm⟩
  · exact .inr ⟨_, _, hplanned, h⟩

/-- Adding and renaming columns leave the data as it is. -/
theorem plan_addColumn [DecidableEq τ] {field : Field τ} {current : Schema τ} {planned : Option (Schema τ × Bool)}
    (h : (Change.addColumn field).plan env current = .ok planned) :
    planned = some (schemaWith current (current.fields ++ [field]), false) := by
  unfold Change.plan at h
  dsimp only at h
  split at h
  · cases h
  · split at h
    · cases h
    · exact (Except.ok.inj h).symm

theorem plan_renameColumn [DecidableEq τ] {source target : String} {current : Schema τ}
    {planned : Option (Schema τ × Bool)} (h : (Change.renameColumn source target).plan env current = .ok planned) :
    ∃ index, current.indexOf source = some index ∧ planned =
      some (schemaWith current (current.fields.modify index fun field => { field with name := target }), false) := by
  unfold Change.plan at h
  dsimp only at h
  split at h
  · cases h
  · next index hindex =>
      split at h
      · cases h
      · exact ⟨index, hindex, (Except.ok.inj h).symm⟩

section Schema

/-- The schema and the snapshots readers hold are as they were. -/
structure Same (t t' : Table M) : Prop where
  schema : t'.schema = t.schema
  pins : t'.pins = t.pins

variable [DecidableEq τ]

theorem insertLocked_same {batches : List (RecordBatch τ ν)} {rows : Nat}
    (h : t.insertLocked env batches = .ok (rows, t')) : t.Same t' := by
  rcases (insertLocked_ok h).2 with ⟨-, rfl⟩ | ⟨-, -, happend⟩
  · exact ⟨rfl, rfl⟩
  · obtain ⟨frames, wal, -, -, rfl⟩ := appendRows_ok happend
    exact ⟨rfl, rfl⟩

theorem insertLocked_schema {batches : List (RecordBatch τ ν)} {rows : Nat}
    (h : t.insertLocked env batches = .ok (rows, t')) : t'.schema = t.schema := (insertLocked_same h).schema

omit [DecidableEq τ] in
theorem delete_same {segmentDeletions : List (SegmentId × List Nat)} {memtableSeqnos : List Nat} {deleted : Nat}
    (h : t.delete env segmentDeletions memtableSeqnos = .ok (deleted, t')) : t.Same t' := by
  rcases delete_ok h with ⟨rfl, -⟩ | ⟨planned, frame, wal, -, -, -, rfl⟩
  · exact ⟨rfl, rfl⟩
  · exact ⟨rfl, rfl⟩

omit [DecidableEq τ] in
theorem delete_schema {segmentDeletions : List (SegmentId × List Nat)} {memtableSeqnos : List Nat} {deleted : Nat}
    (h : t.delete env segmentDeletions memtableSeqnos = .ok (deleted, t')) : t'.schema = t.schema := (delete_same h).schema

theorem updateLocked_same {segmentDeletions : List (SegmentId × List Nat)} {memtableSeqnos : List Nat}
    {replacements : List (RecordBatch τ ν)} {rows : Nat}
    (h : t.updateLocked env segmentDeletions memtableSeqnos replacements = .ok (rows, t')) : t.Same t' := by
  rcases updateLocked_ok h with ⟨rfl, -⟩ | ⟨-, hreplace⟩
  · exact ⟨rfl, rfl⟩
  · obtain ⟨planned, -, ⟨rfl, -⟩ | ⟨merged, frame, wal, -, -, -, rfl⟩⟩ := replaceRows_ok hreplace
    · exact ⟨rfl, rfl⟩
    · exact ⟨rfl, rfl⟩

theorem updateLocked_schema {segmentDeletions : List (SegmentId × List Nat)} {memtableSeqnos : List Nat}
    {replacements : List (RecordBatch τ ν)} {rows : Nat}
    (h : t.updateLocked env segmentDeletions memtableSeqnos replacements = .ok (rows, t')) : t'.schema = t.schema :=
  (updateLocked_same h).schema

theorem flushLocked_same {rows : Nat} (h : t.flushLocked env = .ok (rows, t')) : t.Same t' := by
  rcases flushLocked_ok h with ⟨-, rfl⟩ | ⟨pending, f, -, -, -, rfl⟩
  · exact ⟨rfl, rfl⟩
  · exact ⟨rfl, rfl⟩

theorem flushLocked_schema {rows : Nat} (h : t.flushLocked env = .ok (rows, t')) : t'.schema = t.schema :=
  (flushLocked_same h).schema

theorem compactLocked_same {rewrite : Rewrite τ ν} {rows : Nat} (h : t.compactLocked env rewrite = .ok (rows, t')) :
    t.Same t' := by
  rcases compactLocked_ok h with ⟨-, rfl⟩ | ⟨groups, pending, f, -, -, -, -, rfl⟩
  · exact ⟨rfl, rfl⟩
  · exact ⟨rfl, rfl⟩

theorem compactLocked_schema {rewrite : Rewrite τ ν} {rows : Nat} (h : t.compactLocked env rewrite = .ok (rows, t')) :
    t'.schema = t.schema := (compactLocked_same h).schema

omit [DecidableEq τ] in
theorem deleteSegments_same {segmentIds : List SegmentId} {deleted : Nat}
    (h : t.deleteSegments segmentIds = .ok (deleted, t')) : t.Same t' := by
  rcases deleteSegments_ok h with ⟨-, rfl⟩ | ⟨-, f, -, rfl⟩
  · exact ⟨rfl, rfl⟩
  · exact ⟨rfl, rfl⟩

omit [DecidableEq τ] in
theorem deleteSegments_schema {segmentIds : List SegmentId} {deleted : Nat}
    (h : t.deleteSegments segmentIds = .ok (deleted, t')) : t'.schema = t.schema := (deleteSegments_same h).schema

theorem setSchemaLocked_schema {before after : TableSchema τ} {rewrite : Bool} {s : Snapshot τ ν}
    (h : t.setSchemaLocked env before after rewrite s = .ok t') : t'.schema = after := by
  obtain ⟨t₁, -, rfl⟩ := setSchemaLocked_ok h
  rfl

theorem setSchemaLocked_pins {before after : TableSchema τ} {rewrite : Bool} {s : Snapshot τ ν}
    (h : t.setSchemaLocked env before after rewrite s = .ok t') : t'.pins = t.pins := by
  obtain ⟨t₁, hcommit, rfl⟩ := setSchemaLocked_ok h
  obtain ⟨-, extent, file, -, ⟨-, f, -, rfl⟩ | ⟨-, pending, f, -, -, rfl⟩⟩ := commitSchema_ok hcommit
  · rfl
  · rfl

end Schema

end Table

theorem TableSchema.new_schema {env : Env τ ν} {schema : Schema τ} {after : TableSchema τ}
    (h : TableSchema.new env schema = .ok after) : after.schema = schema ∧ after.layout = schemaLayout env schema := by
  obtain ⟨columns, -, h⟩ := bind_eq_ok.mp h
  rw [← Except.ok.inj h]
  exact ⟨rfl, rfl⟩

section Open

variable {env : Env τ ν}

theorem applyLoggedDeletes_file (w : Writer M) (segments : List SegmentDeletes) :
    (applyLoggedDeletes w segments).file = w.file := by
  induction segments generalizing w with
  | nil => rfl
  | cons logged segments ih =>
      unfold applyLoggedDeletes at ih ⊢
      rw [List.foldl_cons, ih]
      split
      · rfl
      · rfl

theorem replayRecord_file [DecidableEq τ] {w w' : Writer M} {record : WalRecord τ ν}
    (h : replayRecord env w record = .ok w') : w'.file = w.file := by
  cases record with
  | insert lsn baseSeqno batch =>
      obtain ⟨decoded, -, h⟩ := bind_eq_ok.mp h
      rw [← Except.ok.inj h]
  | delete lsn segments memtableRows =>
      rw [← Except.ok.inj h]
      exact applyLoggedDeletes_file w segments
  | update lsn segments memtableRows baseSeqno batch =>
      obtain ⟨decoded, -, h⟩ := bind_eq_ok.mp h
      rw [← Except.ok.inj h]
      exact applyLoggedDeletes_file w segments

theorem replay_file [DecidableEq τ] {w w' : Writer M} {checkpointLsn : Lsn}
    (h : replay env w checkpointLsn = .ok w') : w'.file = w.file := by
  obtain ⟨⟨records, wal⟩, -, h⟩ := bind_eq_ok.mp h
  obtain ⟨w₁, hfold, h⟩ := bind_eq_ok.mp h
  rw [← Except.ok.inj h]
  have hfile : w₁.file = w.file := foldlM_ok (f := replayRecord env) (s := { w with wal := wal })
    (P := fun q : Writer M => q.file = w.file) (fun _ _ _ hs hstep => (replayRecord_file hstep).trans hs) rfl hfold
  exact hfile

/-- Opening gives a table over the file, which may flush what it replayed. -/
theorem Table.fromFile_ok [DecidableEq τ] {file : TableFile M} {a b : Option LogFile} {t : Table M}
    (h : Table.fromFile env file a b = .ok t) :
    ∃ w schema, w.file = file ∧ TableSchema.new env file.schema = .ok schema ∧
      (⟨w, w.snapshot schema, [], schema⟩ : Table M).flushIfNeeded env = .ok t := by
  obtain ⟨schema, hschema, h⟩ := bind_eq_ok.mp h
  obtain ⟨deletes, -, h⟩ := bind_eq_ok.mp h
  obtain ⟨wal, -, h⟩ := bind_eq_ok.mp h
  obtain ⟨w, hreplay, h⟩ := bind_eq_ok.mp h
  exact ⟨w, schema, replay_file hreplay, hschema, h⟩

/-- The logs of a new table. -/
def WalPair.fresh (tableUuid : List UInt8) : WalPair :=
  ⟨WalFile.create ⟨0, tableUuid⟩, WalFile.create ⟨0, tableUuid⟩, false⟩

theorem WalPair.fresh_holds (env : Env τ ν) (tableUuid : List UInt8) : (fresh tableUuid).Holds env [] [] :=
  ⟨⟨rfl, rfl, .nil⟩, ⟨rfl, rfl, .nil⟩, rfl, List.Pairwise.nil⟩

/-- A table nothing has been written to. -/
def freshTable (file : TableFile M) (current : TableSchema τ) : Table M :=
  let w : Writer M := {
    file := file
    wal := WalPair.fresh file.header.tableUuid
    memtable := Memtable.new file.schema file.committed.manifest.nextSeqno
    deletes := fun _ => none
    dirtyDeletes := []
    nextLsn := file.committed.metaPage.checkpointLsn + 1 }
  ⟨w, w.snapshot current, [], current⟩

/-- A flush finds nothing to do in a new table. -/
theorem freshTable_flushIfNeeded [DecidableEq τ] (file : TableFile M) (current : TableSchema τ) :
    (freshTable file current).flushIfNeeded env = .ok (freshTable file current) := by
  have hdrain : env.drain [] = [] := List.perm_nil.mp (env.drain_perm [])
  have hempty : ((freshTable file current).frozen env).isEmpty = true := by
    change (true && (env.drain []).isEmpty) = true
    rw [hdrain]
    rfl
  have hflush : (freshTable file current).flushLocked env = .ok (0, freshTable file current) := by
    unfold Table.flushLocked
    have hfreeze : (freshTable file current).freezeStage env =
        ((freshTable file current).frozen env, freshTable file current) := rfl
    rw [hfreeze]
    dsimp only
    rw [if_pos hempty]
    rfl
  unfold Table.flushIfNeeded
  split
  · rw [hflush]
    rfl
  · rfl

theorem Table.create_ok [DecidableEq τ] {schema : Schema τ} {fingerprint : Schema τ → Nat}
    {newTableUuid : Extent → List UInt8} {t : Table M}
    (h : Table.create env M schema fingerprint newTableUuid none = .ok t) :
    ∃ file seed current, TableFile.create M .columnar schema fingerprint newTableUuid none = .ok file ∧
      file.Fresh .columnar seed ∧ TableSchema.new env file.schema = .ok current ∧ t = freshTable file current := by
  obtain ⟨file, hfile, h⟩ := bind_eq_ok.mp h
  obtain ⟨seed, hfresh, -⟩ := TableFile.create_fresh hfile
  obtain ⟨current, hcurrent, h⟩ := bind_eq_ok.mp h
  refine ⟨file, seed, current, hfile, hfresh, hcurrent, ?_⟩
  have hdeletes : Table.loadAllDeletes file.io.file file.committed.manifest = .ok fun _ => none := by
    rw [Table.loadAllDeletes, hfresh.manifest]
    rfl
  rw [hdeletes] at h
  have hopen : (⟨freshTable file current |>.writer, (freshTable file current).writer.snapshot current, [], current⟩ :
      Table M).flushIfNeeded env = .ok t := h
  have hnew : (freshTable file current).flushIfNeeded env = .ok (freshTable file current) :=
    freshTable_flushIfNeeded file current
  exact (Except.ok.inj (hnew.symm.trans hopen)).symm

end Open

end LocalTables
