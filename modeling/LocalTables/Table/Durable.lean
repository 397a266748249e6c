import LocalTables.Table.Reopened

/-! Every operation that keeps the schema keeps a table durable: the calls that are logged, a flush, a compaction, a drop
of segments, and the coming and going of readers. -/

namespace LocalTables

variable {τ ν : Type} {M : Media τ ν}

section Wal

variable {p p' : WalPair} {tableUuid : List UInt8}

theorem WalPair.Owned.appendGroup (h : p.Owned tableUuid) {frames : List Bytes} (hok : p.appendGroup frames = .ok p') :
    p'.Owned tableUuid := by
  obtain ⟨f, hf, hok⟩ := bind_eq_ok.mp hok
  obtain rfl := Except.ok.inj hok
  have hheader : f.header = (p.file p.active).header := by
    unfold WalFile.appendGroup at hf
    split at hf
    · rw [← Except.ok.inj hf]
    · split at hf
      · rw [← Except.ok.inj hf]
      · cases hf
  obtain ⟨a, b, active⟩ := p
  cases active with
  | false => exact ⟨hheader ▸ h.1, h.2⟩
  | true => exact ⟨h.1, hheader ▸ h.2⟩

theorem WalPair.Owned.rotate (h : p.Owned tableUuid) : p.rotate.2.Owned tableUuid := by
  obtain ⟨a, b, active⟩ := p
  cases active with
  | false => exact ⟨h.1, h.2⟩
  | true => exact ⟨h.1, h.2⟩

theorem WalPair.Owned.truncate (h : p.Owned tableUuid) (index : Bool) : (p.truncate index).Owned tableUuid := by
  cases index with
  | false => exact ⟨h.1, h.2⟩
  | true => exact ⟨h.1, h.2⟩

end Wal

theorem WalPair.appendGroup_nil (p : WalPair) : p.appendGroup [] = .ok p := by
  obtain ⟨a, b, active⟩ := p
  cases active with
  | false => rfl
  | true => rfl

theorem mem_markDirty {dirty : List SegmentId} {segments : List (SegmentId × Finset Nat)} {id : SegmentId} :
    id ∈ markDirty dirty segments ↔ id ∈ dirty ∨ id ∈ segments.map Prod.fst := by
  induction segments generalizing dirty with
  | nil => simp [markDirty]
  | cons segment segments ih =>
      have hstep : markDirty dirty (segment :: segments) = markDirty (dirty.insert segment.1) segments := rfl
      rw [hstep, ih, List.mem_insert_iff, List.map_cons, List.mem_cons]
      tauto

theorem PlannedDeletes.map_loggedSegments (planned : PlannedDeletes) :
    planned.loggedSegments.map (fun logged => (logged.segmentId, logged.rows)) = planned.segments := by
  rw [loggedSegments, List.map_map]
  exact List.map_id _

theorem planDeletes_listed {w : Writer M} {segmentDeletions : List (SegmentId × List Nat)} {memtableSeqnos : List Nat}
    {planned : PlannedDeletes} (h : planDeletes w segmentDeletions memtableSeqnos = .ok planned) :
    ∀ segment ∈ planned.segments, w.file.committed.manifest.Lists segment.1 := by
  obtain ⟨hlisted, hsegments, -⟩ := planDeletes_ok h
  intro segment hsegment
  rw [hsegments] at hsegment
  obtain ⟨deletion, hdeletion, rfl⟩ := List.mem_map.mp hsegment
  obtain ⟨entry, hentry⟩ := hlisted deletion (List.mem_of_mem_filter hdeletion)
  exact Manifest.lists_of_segment hentry

theorem Manifest.Numbered.lists_lt {m : Manifest} (h : m.Numbered) {id : SegmentId} (hid : m.Lists id) :
    id < m.nextSegmentId := by
  obtain ⟨entry, hentry, rfl⟩ := hid
  exact h.below entry hentry

section Frames

variable {allowed : Manifest → Nat → Nat → Prop} {minActive : Nat} {p p' : Pending M}

theorem Edit.framed (hedit : Edit allowed minActive p p')
    (h : ∀ entry ∈ p.manifest.segments, entry.data.offset ≤ entry.metaFrame.offset) :
    ∀ entry ∈ p'.manifest.segments, entry.data.offset ≤ entry.metaFrame.offset := by
  intro other hother
  cases hedit with
  | @segment io io' m m' e data _ hwrite =>
      have hsegments : m'.segments = m.segments := (writeAllocated_stamps isPowerOfTwo_segmentAlign hwrite).2.1
      rcases List.mem_append.mp hother with hold | hnew
      · exact h other (hsegments ▸ hold)
      · rw [List.mem_singleton.mp hnew]
        exact Nat.le_add_right _ _
  | @deletes io io' m m' e id entry rows hentry _ hwrite =>
      have hsegments : m'.segments = m.segments := (writeAllocated_stamps isPowerOfTwo_bufferAlign hwrite).2.1
      obtain ⟨front, back, hsplit, -, -, hreplaced⟩ := Manifest.segments_replaceDeletes hentry hsegments e rows.card
      dsimp only at h hother
      rw [hsplit] at h
      rw [hreplaced] at hother
      simp only [List.mem_append, List.mem_cons] at h hother
      rcases hother with hother | rfl | hother
      · exact h other (.inl hother)
      · exact h entry (.inr (.inl rfl))
      · exact h other (.inr (.inr hother))
  | @retire io m ids sources hperm =>
      have hkept : (m.retire ids sources).segments = m.segments.filter fun entry => entry.segmentId ∉ ids :=
        Manifest.segments_freeAll _
      dsimp only at hother
      rw [hkept] at hother
      exact h other (List.mem_of_mem_filter hother)
  | stamp checkpointLsn nextSeqno => exact h other hother

theorem Edits.framed (hedits : Edits allowed minActive p p')
    (h : ∀ entry ∈ p.manifest.segments, entry.data.offset ≤ entry.metaFrame.offset) :
    ∀ entry ∈ p'.manifest.segments, entry.data.offset ≤ entry.metaFrame.offset := by
  induction hedits with
  | refl => exact h
  | tail _ hedit ih => exact hedit.framed ih

end Frames

namespace Table

variable {env : Env τ ν} {t t' : Table M} {old fresh : List (WalRecord τ ν)}

/-- A step that commits, if it does, what it has edited. -/
theorem Framed.acts (h : t.Framed) (hacts : t.Acts t') : t'.Framed := by
  unfold Framed
  cases hacts.commits with
  | quiet hfile =>
      rw [hfile]
      exact h
  | edits p hedits hcommit =>
      rw [(TableFile.commit_stamps hcommit).2.2.2.2.1]
      exact hedits.framed h

theorem Saved.marked (h : t.Saved) {segmentDeletions : List (SegmentId × List Nat)} {memtableSeqnos : List Nat}
    {planned : PlannedDeletes} (hplanned : planDeletes t.writer segmentDeletions memtableSeqnos = .ok planned)
    (hfile : t'.writer.file = t.writer.file) (hdeletes : t'.writer.deletes = markDeletes t.writer.deletes planned.segments)
    (hdirty : t'.writer.dirtyDeletes = markDirty t.writer.dirtyDeletes planned.segments) : t'.Saved := by
  intro entry hentry
  rw [hfile] at hentry
  obtain ⟨rows, hrows, hsub, hclean⟩ := h entry hentry
  rw [hfile, hdeletes, hdirty]
  refine ⟨rows, hrows, ?_, ?_⟩
  · intro position hposition
    exact markDeletes_keeps hplanned (hsub hposition)
  · intro hnot
    rw [mem_markDirty, not_or] at hnot
    rw [markDeletes_of_notMem hnot.2]
    exact hclean hnot.1

/-- Edits and a commit leave the schema blob in force. -/
theorem schemaExtent_edits (h : t.Kept) {p : Pending M}
    (hedits : Edits anyAllocation t.minActiveTxn ⟨t.writer.file.io, t.writer.file.beginManifest⟩ p)
    (hcommit : TableFile.commit { t.writer.file with io := p.io } p.manifest = .ok t'.writer.file) :
    schemaExtent t'.writer.file.header t'.writer.file.committed.manifest =
      schemaExtent t.writer.file.header t.writer.file.committed.manifest := by
  obtain ⟨hstamps, -, hheader, -⟩ := TableFile.commit_stamps hcommit
  have hmanifest : t'.writer.file.committed.manifest.schema = p.manifest.schema :=
    congrArg (fun stamps => stamps.2.2) hstamps
  rcases ((Prepared.begin h.sound).edits hedits (.inl rfl)).schema with hsame | ⟨-, hpos, -⟩
  · unfold schemaExtent at hsame ⊢
    rw [hheader, hmanifest]
    exact hsame
  · exact absurd hpos (lt_irrefl 0)

/-- What the file says of the schema is said after a step as before. -/
theorem Acts.readSchema (hacts : t.Acts t') (h : t.Kept) :
    t'.writer.file.header = t.writer.file.header ∧
      LocalTables.readSchema t'.writer.file.io.file (schemaExtent t'.writer.file.header t'.writer.file.committed.manifest) =
        LocalTables.readSchema t.writer.file.io.file
          (schemaExtent t.writer.file.header t.writer.file.committed.manifest) := by
  cases hacts.commits with
  | quiet hfile => rw [hfile]; exact ⟨rfl, rfl⟩
  | edits p hedits hcommit =>
      refine ⟨(TableFile.commit_stamps hcommit).2.2.1, ?_⟩
      have hguarded := h.sound.needs_guarded h.min_le (e := schemaExtent t.writer.file.header t.writer.file.committed.manifest)
        (.inl (by simp [Committed.needs]))
      obtain ⟨ops, hissued, hspares⟩ := ((Prepared.begin h.sound).edits hedits (.inl rfl)).commit_spares hcommit
      have hapart := TableFile.page_apart_of_dataStart t.writer.file.nextSlot h.sound.recovers.schemaAt.1
      have hreads := (Media.applyAll_spared (hspares _ hguarded hapart) h.sound.recovers.schemaAt.2).2 .schema
      rw [schemaExtent_edits h hedits hcommit, LocalTables.readSchema, LocalTables.readSchema, hissued.2, hreads]

section Appends

variable [DecidableEq τ]

/-- An insert that has rows of the right fields does what it does under the lock. -/
theorem insertLocked_of_appendRows {batches : List (RecordBatch τ ν)}
    (hfields : ∀ batch ∈ batches, batch.fields = t.schema.schema.fields) (hsome : totalRows batches ≠ 0)
    (hok : t.appendRows env batches = .ok t') : t.insertLocked env batches = .ok (totalRows batches, t') := by
  have hcheck : t.checkFields batches = .ok () := by
    unfold checkFields
    rw [if_pos]
    simpa using hfields
  unfold insertLocked
  simp only [if_neg hsome, hcheck, hok]
  rfl

/-- A step that keeps the schema keeps the table durable when its log does. -/
theorem Durable.stepped (h : t.Durable env old fresh) {old' fresh' : List (WalRecord τ ν)} (hstep : Locked env t t')
    (hacts : t.Acts t') (hschema : t'.schema = t.schema) (hfresh : t'.Fresh) (hlogged : t'.Logged env old' fresh')
    (howned : t'.writer.wal.Owned t'.writer.file.header.tableUuid) (hsaved : t'.Saved)
    (hnamed : ∀ record ∈ t'.unflushed (old' ++ fresh'), ∀ id ∈ record.names,
      id < t'.writer.file.committed.manifest.nextSegmentId)
    (hseqno : t'.writer.file.committed.manifest.nextSeqno ≤ t'.writer.memtable.nextSeqno)
    (hreplays : ∀ w, t'.Base w → ∃ u, (t'.unflushed (old' ++ fresh')).foldlM (replayRecord env) w = .ok u ∧
      u.Mirrors t.schema.schema t'.writer) : t'.Durable env old' fresh' where
  kept := h.kept.advances (h.kept.advances_of_acts hacts)
  whole := h.whole.locked hstep hschema hfresh
  accepted := by
    rw [hschema]
    exact hstep.all h.accepted h.whole.housed (built_suits h.whole.layout)
  framed := h.framed.acts hacts
  logged := hlogged
  owned := howned
  schema := by
    rw [hschema, (hacts.readSchema h.kept).2]
    exact h.schema
  derived := by
    rw [hschema]
    exact h.derived
  saved := hsaved
  named := hnamed
  seqno := hseqno
  replays := by
    rw [hschema]
    exact hreplays

/-- A call that adds records to the log and leaves the table as durable as they are. -/
structure Appends (env : Env τ ν) (t : Table M) (old fresh more : List (WalRecord τ ν)) (t' : Table M) : Prop where
  framed : ∃ frames, more.mapM (encodeRecord env) = .ok frames ∧ t.writer.wal.appendGroup frames = .ok t'.writer.wal
  file : t'.writer.file = t.writer.file
  schema : t'.schema = t.schema
  nextSeqno : t.writer.memtable.nextSeqno ≤ t'.writer.memtable.nextSeqno
  durable : t'.Durable env old (fresh ++ more)

theorem Durable.appends_nil (h : t.Durable env old fresh) : t.Appends env old fresh [] t :=
  ⟨⟨[], rfl, WalPair.appendGroup_nil _⟩, rfl, rfl, le_rfl, by rw [List.append_nil]; exact h⟩

omit [DecidableEq τ] in
theorem mapM_encodeRecord_one {record : WalRecord τ ν} {frame : Bytes} (h : encodeRecord env record = .ok frame) :
    [record].mapM (encodeRecord env) = .ok [frame] := by
  rw [List.mapM_cons, h]
  rfl

/-- A call that adds records to the log, and whose effect replaying them has, keeps the table durable. -/
theorem Durable.appended (h : t.Durable env old fresh) {more : List (WalRecord τ ν)} {frames : List Bytes}
    (hframes : more.mapM (encodeRecord env) = .ok frames) (hwal : t.writer.wal.appendGroup frames = .ok t'.writer.wal)
    (hstep : Locked env t t') (hacts : t.Acts t') (hschema : t'.schema = t.schema) (hfresh : t'.Fresh)
    (hfile : t'.writer.file = t.writer.file)
    (hlogged : t'.Logged env old (fresh ++ more) ∧
      t'.unflushed (old ++ (fresh ++ more)) = t.unflushed (old ++ fresh) ++ more)
    (hsaved : t'.Saved)
    (hnamed : ∀ record ∈ more, ∀ id ∈ record.names, id < t.writer.file.committed.manifest.nextSegmentId)
    (hseqno : t.writer.memtable.nextSeqno ≤ t'.writer.memtable.nextSeqno)
    (hreplay : ∀ u : Writer M, u.Mirrors t.schema.schema t.writer →
      ∃ u', more.foldlM (replayRecord env) u = .ok u' ∧ u'.Mirrors t.schema.schema t'.writer) :
    t.Appends env old fresh more t' := by
  refine ⟨⟨frames, hframes, hwal⟩, hfile, hschema, hseqno, ?_⟩
  apply h.stepped hstep hacts hschema hfresh hlogged.1 (hfile ▸ h.owned.appendGroup hwal) hsaved
  · rw [hlogged.2, hfile]
    intro record hrecord
    rcases List.mem_append.mp hrecord with hold | hnew
    · exact h.named record hold
    · exact hnamed record hnew
  · rw [hfile]
    exact h.seqno.trans hseqno
  · intro w hw
    have hbase : t.Base w := by
      refine ⟨hfile ▸ hw.manifest, ?_, hfile ▸ hw.stored, hfile ▸ hw.listed⟩
      rw [hw.memtable, hschema, hfile]
    obtain ⟨u, hfold, hmirrors⟩ := h.replays w hbase
    obtain ⟨u', hfold', hmirrors'⟩ := hreplay u hmirrors
    refine ⟨u', ?_, hmirrors'⟩
    rw [hlogged.2, List.foldlM_append, hfold]
    exact hfold'

/-- The rows of an insert are as durable as the log. -/
theorem Durable.appendRows (h : t.Durable env old fresh) {batches : List (RecordBatch τ ν)}
    (hfields : ∀ batch ∈ batches, batch.fields = t.schema.schema.fields) (hsome : totalRows batches ≠ 0)
    (hok : t.appendRows env batches = .ok t') :
    t.Appends env old fresh (planInserts t.writer.nextLsn t.writer.memtable.nextSeqno batches).1 t' := by
  have hacts := appendRows_acts hok
  have hstep : Locked env t t' := .insert batches (insertLocked_of_appendRows hfields hsome hok)
  have hlogged := h.logged.appendRows hok
  obtain ⟨frames, wal, hframes, hwal, rfl⟩ := appendRows_ok hok
  obtain ⟨-, hlive, hnext⟩ := planInserts_memtable env h.whole.tidy.memtable t.writer.nextLsn batches
  apply h.appended hframes hwal hstep hacts rfl (fresh_publish _) rfl hlogged h.saved
  · intro record hrecord id hid
    rw [planInserts_names hrecord] at hid
    cases hid
  · exact (Nat.le_add_right _ _).trans_eq hnext.symm
  · intro u hu
    have hufields : ∀ batch ∈ batches, batch.fields = u.memtable.schema.fields := by
      rw [hu.schema]
      exact hfields
    refine ⟨_, replay_planInserts hufields, ?_⟩
    obtain ⟨hwf', hlive', hnext'⟩ := planInserts_memtable env hu.wf t.writer.nextLsn batches
    rw [hu.nextSeqno] at hwf' hlive' hnext'
    have hlives := hlive'.trans (congrArg (· ++ numberedFrom t.writer.memtable.nextSeqno (rowsOf batches)) hu.live)
    exact ⟨hu.manifest, hwf', (Memtable.schema_insertAll _ _).trans hu.schema, hlives.trans hlive.symm,
      hnext'.trans hnext.symm, hu.deletes, hu.listed⟩

omit [DecidableEq τ] in
/-- What replaying a deletion that was carried out comes to. -/
theorem replays_deletes {u : Writer M} {schema : Schema τ} (hu : u.Mirrors schema t.writer)
    {segmentDeletions : List (SegmentId × List Nat)} {memtableSeqnos : List Nat} {planned : PlannedDeletes}
    (hplanned : planDeletes t.writer segmentDeletions memtableSeqnos = .ok planned) :
    applyLoggedDeletes u planned.loggedSegments = { u with
      deletes := markDeletes u.deletes planned.segments
      dirtyDeletes := markDirty u.dirtyDeletes planned.segments } := by
  have hlisted : ∀ logged ∈ planned.loggedSegments, u.file.committed.manifest.Lists logged.segmentId := by
    intro logged hlogged
    obtain ⟨segment, hsegment, rfl⟩ := List.mem_map.mp hlogged
    rw [hu.manifest]
    exact planDeletes_listed hplanned segment hsegment
  rw [applyLoggedDeletes_eq u hlisted, planned.map_loggedSegments]

omit [DecidableEq τ] in
theorem planned_below (hnumbered : t.writer.file.committed.manifest.Numbered)
    {segmentDeletions : List (SegmentId × List Nat)} {memtableSeqnos : List Nat} {planned : PlannedDeletes}
    (hplanned : planDeletes t.writer segmentDeletions memtableSeqnos = .ok planned) :
    ∀ id ∈ planned.loggedSegments.map SegmentDeletes.segmentId, id < t.writer.file.committed.manifest.nextSegmentId := by
  intro id hid
  obtain ⟨logged, hlogged, rfl⟩ := List.mem_map.mp hid
  obtain ⟨segment, hsegment, rfl⟩ := List.mem_map.mp hlogged
  exact hnumbered.lists_lt (planDeletes_listed hplanned segment hsegment)

/-- The rows a call deletes are gone for good once the log says so. -/
theorem Durable.delete (h : t.Durable env old fresh) {segmentDeletions : List (SegmentId × List Nat)}
    {memtableSeqnos : List Nat} {deleted : Nat} (hok : t.delete env segmentDeletions memtableSeqnos = .ok (deleted, t')) :
    ∃ more, more.length ≤ 1 ∧ t.Appends env old fresh more t' := by
  have hacts := delete_acts h.kept.synced hok
  have hstep : Locked env t t' := .delete _ _ hok
  rcases delete_ok hok with ⟨rfl, -⟩ | ⟨planned, frame, wal, hplanned, hframe, hwal, rfl⟩
  · exact ⟨[], Nat.zero_le _, h.appends_nil⟩
  · refine ⟨[.delete t.writer.nextLsn planned.loggedSegments planned.memtable], le_rfl, ?_⟩
    have hlogged := h.logged.delete hframe hwal rfl
    rw [applyDeletes_snd] at hacts hstep hlogged ⊢
    apply h.appended (mapM_encodeRecord_one hframe) hwal hstep hacts rfl (fresh_publish _) rfl hlogged
      (h.saved.marked hplanned rfl rfl rfl)
    · intro record hrecord
      rw [List.mem_singleton.mp hrecord]
      exact planned_below h.kept.numbered hplanned
    · change _ ≤ (t.writer.memtable.delete planned.memtable).2.nextSeqno
      rw [Memtable.delete_snd]
    · intro u hu
      refine ⟨_, rfl, ?_⟩
      rw [replays_deletes hu hplanned]
      exact hu.marked (planDeletes_listed hplanned) planned.memtable rfl rfl rfl rfl rfl rfl

/-- An update is one record: its deletions and its rows are durable together. -/
theorem Durable.updateLocked (h : t.Durable env old fresh) {segmentDeletions : List (SegmentId × List Nat)}
    {memtableSeqnos : List Nat} {replacements : List (RecordBatch τ ν)} {rows : Nat}
    (hwidth : ∀ batch ∈ replacements, ∀ row ∈ batch.rows, row.length = batch.fields.length)
    (hok : t.updateLocked env segmentDeletions memtableSeqnos replacements = .ok (rows, t')) :
    ∃ more, more.length ≤ 1 ∧ t.Appends env old fresh more t' := by
  have hacts := updateLocked_acts h.kept.synced hok
  have hstep : Locked env t t' := .update _ _ _ hok
  rcases updateLocked_ok hok with ⟨rfl, -⟩ | ⟨hfields, hreplace⟩
  · exact ⟨[], Nat.zero_le _, h.appends_nil⟩
  · obtain ⟨planned, hplanned, ⟨rfl, -⟩ | ⟨merged, frame, wal, hmerged, hframe, hwal, rfl⟩⟩ := replaceRows_ok hreplace
    · exact ⟨[], Nat.zero_le _, h.appends_nil⟩
    · obtain ⟨-, hmergedFields⟩ := mergeReplacements_ok hfields hwidth hmerged
      refine ⟨[.update t.writer.nextLsn planned.loggedSegments planned.memtable t.writer.memtable.nextSeqno
        (encodeBatch (merged.getD ⟨t.schema.schema.fields, []⟩))], le_rfl, ?_⟩
      have hdeletedNext : (t.writer.memtable.delete planned.memtable).2.nextSeqno = t.writer.memtable.nextSeqno := by
        rw [Memtable.delete_snd]
      have hwf := h.whole.tidy.memtable.delete planned.memtable
      rw [applyDeletes_snd] at hacts hstep ⊢
      apply h.appended (mapM_encodeRecord_one hframe) hwal hstep hacts rfl (fresh_publish _) rfl
        (h.logged.appendOne rfl hframe hwal rfl rfl) (h.saved.marked hplanned rfl rfl rfl)
      · intro record hrecord
        rw [List.mem_singleton.mp hrecord]
        exact planned_below h.kept.numbered hplanned
      · cases merged with
        | none => exact hdeletedNext.ge
        | some batch =>
            refine hdeletedNext.ge.trans ?_
            change _ ≤ (Memtable.insertAt _ env _ batch).nextSeqno
            unfold Memtable.insertAt
            split
            · exact le_rfl
            · exact le_max_left _ _
      · intro u hu
        have hmarked : Writer.Mirrors t.schema.schema
            { u with
              deletes := markDeletes u.deletes planned.segments
              dirtyDeletes := markDirty u.dirtyDeletes planned.segments
              memtable := (u.memtable.delete planned.memtable).2 }
            { t.writer with
              deletes := markDeletes t.writer.deletes planned.segments
              memtable := (t.writer.memtable.delete planned.memtable).2 } :=
          hu.marked (planDeletes_listed hplanned) planned.memtable rfl rfl rfl rfl rfl rfl
        have hschema : (u.memtable.delete planned.memtable).2.schema = t.schema.schema := hmarked.schema
        have hlogged : (merged.getD ⟨t.schema.schema.fields, []⟩).fields =
            (u.memtable.delete planned.memtable).2.schema.fields := by
          rw [hschema]
          cases merged with
          | none => rfl
          | some batch => exact hmergedFields batch rfl
        have hstep : replayRecord env u (.update t.writer.nextLsn planned.loggedSegments planned.memtable
            t.writer.memtable.nextSeqno (encodeBatch (merged.getD ⟨t.schema.schema.fields, []⟩))) = .ok { u with
              deletes := markDeletes u.deletes planned.segments
              dirtyDeletes := markDirty u.dirtyDeletes planned.segments
              memtable := (u.memtable.delete planned.memtable).2.insertAt env t.writer.memtable.nextSeqno
                (merged.getD ⟨t.schema.schema.fields, []⟩) } := by
          simp only [replayRecord, replays_deletes hu hplanned]
          rw [decodeBatch_encodeBatch hlogged]
          rfl
        refine ⟨_, bind_eq_ok.mpr ⟨_, hstep, rfl⟩, ?_⟩
        rw [← hdeletedNext]
        cases merged with
        | none =>
            have hnothing : (u.memtable.delete planned.memtable).2.insertAt env
                (t.writer.memtable.delete planned.memtable).2.nextSeqno ⟨t.schema.schema.fields, []⟩ =
                  (u.memtable.delete planned.memtable).2 := if_pos rfl
            dsimp only [Option.getD_none]
            rw [hnothing]
            exact hmarked.same rfl rfl rfl fun _ _ => rfl
        | some batch =>
            dsimp only [Option.getD_some]
            exact hmarked.inserted hwf rfl rfl rfl rfl rfl rfl

/-- A new table has nothing in its logs, and nothing to lose. -/
theorem Durable.created {schema : Schema τ} {fingerprint : Schema τ → Nat} {newTableUuid : Extent → List UInt8}
    (h : Table.create env M schema fingerprint newTableUuid none = .ok t) : t.Durable env [] [] := by
  have hwhole := Whole.created h
  have hlaid := Laid.created h
  have hkept := (create_isolated h).toKept
  obtain ⟨file, seed, current, -, hfresh, hcurrent, rfl⟩ := create_ok h
  have hschema : current.schema = file.schema := (TableSchema.new_schema hcurrent).1
  have hsegments : file.committed.manifest.segments = [] := by
    rw [hfresh.manifest]
    rfl
  have hextent : schemaExtent file.header file.committed.manifest = file.header.schema := by
    rw [schemaExtent, hfresh.manifest]
    exact ite_self _
  refine ⟨hkept, hwhole, ?_, ?_, .created hfresh current, ⟨rfl, rfl⟩, ?_, ?_, ?_, by simp [unflushed], le_rfl, ?_⟩
  · intro entry hentry
    change entry ∈ file.committed.manifest.segments at hentry
    rw [hsegments] at hentry
    cases hentry
  · intro entry hentry
    change entry ∈ file.committed.manifest.segments at hentry
    rw [hsegments] at hentry
    cases hentry
  · change LocalTables.readSchema file.io.file (schemaExtent file.header file.committed.manifest) = .ok current.schema
    rw [hextent, hschema]
    exact hfresh.schema
  · change TableSchema.new env current.schema = .ok current
    rw [hschema]
    exact hcurrent
  · intro entry hentry
    change entry ∈ file.committed.manifest.segments at hentry
    rw [hsegments] at hentry
    cases hentry
  · intro w hw
    have hmemtable : w.memtable = Memtable.new current.schema file.committed.manifest.nextSeqno := hw.memtable
    refine ⟨w, rfl, hw.manifest, ?_, ?_, ?_, ?_, ?_, hw.listed⟩
    · rw [hmemtable]
      exact .new _ _
    · rw [hmemtable]
      rfl
    · rw [hmemtable]
      rfl
    · rw [hmemtable]
      rfl
    · rintro id ⟨entry, hentry, -⟩
      change entry ∈ file.committed.manifest.segments at hentry
      rw [hsegments] at hentry
      cases hentry

omit [DecidableEq τ] in
/-- Readers come and go without changing what is held. -/
theorem Base.repin {w : Writer M} (h : t'.Base w) (hwriter : t'.writer = t.writer) (hschema : t'.schema = t.schema) :
    t.Base w :=
  ⟨hwriter ▸ h.manifest, by rw [h.memtable, hwriter, hschema], hwriter ▸ h.stored, hwriter ▸ h.listed⟩

theorem Durable.repin (h : t.Durable env old fresh) (hkept : t'.Kept) (hwhole : t'.Whole env)
    (hwriter : t'.writer = t.writer) (hschema : t'.schema = t.schema) : t'.Durable env old fresh := by
  have hlogged : t'.Logged env old fresh ∧ t'.unflushed (old ++ fresh) = t.unflushed (old ++ fresh) :=
    h.logged.quiet (congrArg Writer.wal hwriter) (congrArg Writer.nextLsn hwriter)
      (congrArg (fun w => w.file.committed) hwriter)
  refine ⟨hkept, hwhole, ?_, ?_, hlogged.1, hwriter ▸ h.owned, ?_, hschema ▸ h.derived, ?_, ?_, hwriter ▸ h.seqno, ?_⟩
  · rw [hschema]
    exact h.accepted.same (congrArg Writer.file hwriter)
  · unfold Framed
    rw [hwriter]
    exact h.framed
  · rw [hwriter, hschema]
    exact h.schema
  · have hsaved := h.saved
    unfold Saved at hsaved ⊢
    rw [hwriter]
    exact hsaved
  · rw [hlogged.2, hwriter]
    exact h.named
  · intro w hw
    rw [hlogged.2, hwriter, hschema]
    exact h.replays w (hw.repin hwriter hschema)

theorem Durable.pin (h : t.Durable env old fresh) : t.pin.Durable env old fresh :=
  h.repin ⟨h.kept.sound, h.kept.synced.congr rfl rfl, h.kept.numbered⟩ h.whole.pin rfl rfl

theorem Durable.unpin (h : t.Durable env old fresh) (index : Nat) : (t.unpin index).Durable env old fresh :=
  h.repin ⟨h.kept.sound, h.kept.synced.congr rfl rfl, h.kept.numbered⟩ (h.whole.unpin index) rfl rfl

end Appends

end Table

end LocalTables
