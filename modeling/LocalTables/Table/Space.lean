import LocalTables.Table.Operations
import LocalTables.TableFile.Transaction

/-! What the operations of the table do to the file. Every time the writer lock is held, the file is
either left alone or taken through one commit, prepared from the manifest in force. -/

namespace LocalTables

variable {τ ν : Type} {M : Media τ ν}

/-- Segment ids are given out once. -/
structure Manifest.Numbered (m : Manifest) : Prop where
  nodup : (m.segments.map SegmentEntry.segmentId).Nodup
  below : ∀ entry ∈ m.segments, entry.segmentId < m.nextSegmentId

namespace Manifest.Numbered

variable {m m' : Manifest}

theorem congr (h : m.Numbered) (hsegments : m'.segments = m.segments)
    (hnext : m'.nextSegmentId = m.nextSegmentId) : m'.Numbered :=
  ⟨hsegments ▸ h.nodup, hsegments ▸ hnext ▸ h.below⟩

theorem addSegment (h : m.Numbered) (data metaFrame : Extent) (rowCount : Nat) :
    (m.addSegment data metaFrame rowCount).Numbered := by
  refine ⟨?_, fun entry hentry => ?_⟩
  · rw [Manifest.addSegment, List.map_append]
    refine h.nodup.append (List.nodup_singleton _) fun id hold hnew => ?_
    obtain ⟨entry, hentry, rfl⟩ := List.mem_map.mp hold
    have := h.below entry hentry
    rw [List.map_cons, List.map_nil, List.mem_singleton] at hnew
    rw [hnew] at this
    exact absurd this (lt_irrefl _)
  · rcases List.mem_append.mp hentry with hold | hnew
    · exact Nat.lt_succ_of_lt (h.below entry hold)
    · rw [List.mem_singleton.mp hnew]
      exact Nat.lt_succ_self _

/-- Two entries with the same id are the same. -/
theorem eq_of_id (h : m.Numbered) {a b : SegmentEntry} (ha : a ∈ m.segments) (hb : b ∈ m.segments)
    (hid : a.segmentId = b.segmentId) : a = b := List.inj_on_of_nodup_map h.nodup ha hb hid

theorem segment_of_mem (h : m.Numbered) {entry : SegmentEntry} (hentry : entry ∈ m.segments) :
    m.segment entry.segmentId = some entry := by
  cases hfind : m.segment entry.segmentId with
  | none =>
      have := List.find?_eq_none.mp hfind entry hentry
      simp at this
  | some found =>
      have hmem : found ∈ m.segments := List.mem_of_find?_eq_some hfind
      have hid : found.segmentId = entry.segmentId := by simpa using List.find?_some hfind
      rw [h.eq_of_id hmem hentry hid]

theorem mem_of_segment {id : SegmentId} {entry : SegmentEntry} (h : m.segment id = some entry) :
    entry ∈ m.segments ∧ entry.segmentId = id :=
  ⟨List.mem_of_find?_eq_some h, by simpa using List.find?_some h⟩

/-- Entries of the manifest with different ids are what their ids select. -/
theorem perm_of_sources (h : m.Numbered) {sources : List SegmentEntry}
    (hnodup : (sources.map SegmentEntry.segmentId).Nodup) (hmem : ∀ entry ∈ sources, entry ∈ m.segments) :
    sources.Perm (m.segments.filter fun entry => entry.segmentId ∈ sources.map SegmentEntry.segmentId) := by
  have hsegments : m.segments.Nodup := h.nodup.of_map _
  refine (List.perm_ext_iff_of_nodup (hnodup.of_map _) (hsegments.filter _)).mpr fun entry => ?_
  rw [List.mem_filter, decide_eq_true_iff]
  constructor
  · intro hentry
    exact ⟨hmem entry hentry, List.mem_map_of_mem hentry⟩
  · rintro ⟨hentry, hid⟩
    obtain ⟨source, hsource, heq⟩ := List.mem_map.mp hid
    rw [← h.eq_of_id (hmem source hsource) hentry heq]
    exact hsource

end Manifest.Numbered

namespace Edit

variable {allowed : Manifest → Nat → Nat → Prop} {minActiveTxn : Nat} {p p' : Pending M}

theorem numbered (hedit : Edit allowed minActiveTxn p p') (h : p.manifest.Numbered) : p'.manifest.Numbered := by
  cases hedit with
  | @segment io io' m m' e data _ hwrite =>
      obtain ⟨-, hpos, halloc, -⟩ := writeAllocated_ok isPowerOfTwo_segmentAlign hwrite
      obtain ⟨frees, fileLen, hm'⟩ := allocate_segments m minActiveTxn hpos isPowerOfTwo_segmentAlign
      rw [halloc] at hm'
      dsimp only at hm'
      have hallocated : m'.Numbered := h.congr (by rw [hm']) (by rw [hm'])
      exact hallocated.addSegment _ _ _
  | @deletes io io' m m' e id entry rows hentry _ hwrite =>
      obtain ⟨-, hpos, halloc, -⟩ := writeAllocated_ok isPowerOfTwo_bufferAlign hwrite
      obtain ⟨frees, fileLen, hm'⟩ := allocate_segments m minActiveTxn hpos isPowerOfTwo_bufferAlign
      rw [halloc] at hm'
      dsimp only at hm'
      obtain ⟨front, back, hsplit, -, -, hsegments⟩ :=
        Manifest.segments_replaceDeletes hentry (show m'.segments = m.segments by rw [hm']) e rows.card
      have hnext : (m'.replaceDeletes id entry.deletes e rows.card).nextSegmentId = m.nextSegmentId := by
        rw [hm']
        unfold Manifest.replaceDeletes
        split
        · exact Manifest.nextSegmentId_free _
        · rfl
      refine ⟨?_, fun other hother => ?_⟩
      · have hnodup := h.nodup
        dsimp only at hnodup ⊢
        rw [hsplit] at hnodup
        rw [hsegments]
        simpa using hnodup
      · dsimp only at hother ⊢
        rw [hsegments] at hother
        rw [hnext]
        have hbelow := h.below
        dsimp only at hbelow
        rw [hsplit] at hbelow
        simp only [List.mem_append, List.mem_cons] at hother hbelow
        rcases hother with hother | rfl | hother
        · exact hbelow other (.inl hother)
        · exact hbelow entry (.inr (.inl rfl))
        · exact hbelow other (.inr (.inr hother))
  | @retire io m ids sources hperm =>
      have heq : (m.retire ids sources).segments = m.segments.filter fun entry => entry.segmentId ∉ ids :=
        Manifest.segments_freeAll _
      have hnext : (m.retire ids sources).nextSegmentId = m.nextSegmentId := by
        rw [Manifest.retire, Manifest.freeAll_eq]
      refine ⟨?_, fun entry hentry => ?_⟩
      · dsimp only
        rw [heq]
        exact h.nodup.sublist ((List.filter_sublist).map _)
      · dsimp only at hentry ⊢
        rw [heq] at hentry
        rw [hnext]
        exact h.below entry (List.mem_of_mem_filter hentry)
  | stamp checkpointLsn nextSeqno => exact h.congr rfl rfl

end Edit

theorem Edits.numbered {allowed : Manifest → Nat → Nat → Prop} {minActiveTxn : Nat} {p p' : Pending M}
    (hedits : Edits allowed minActiveTxn p p') (h : p.manifest.Numbered) : p'.manifest.Numbered := by
  induction hedits with
  | refl => exact h
  | tail _ hedit ih => exact hedit.numbered ih

section Writes

variable {env : Env τ ν} {current : TableSchema τ} {minActive : Nat} {p p' : Pending M}

theorem writeSegment_edits [DecidableEq τ] {batches : List (RecordBatch τ ν)}
    (h : Table.writeSegment env current minActive p batches = .ok p') : Edits anyAllocation minActive p p' := by
  rcases writeSegment_ok h with ⟨-, rfl⟩ | ⟨data, e, m, io, -, -, hwrite, rfl⟩
  · exact .refl
  · exact .single (.segment data trivial hwrite)

theorem writeBitmap_edits {deletes : SegmentId → Option (Finset Nat)} {id : SegmentId}
    (h : Table.writeBitmap deletes minActive p id = .ok p') : Edits anyAllocation minActive p p' := by
  rcases writeBitmap_ok h with ⟨-, rfl⟩ | ⟨rows, entry, e, m, io, -, hentry, hwrite, rfl⟩
  · exact .refl
  · exact .single (.deletes id entry rows hentry trivial hwrite)

theorem writeSegments_edits [DecidableEq τ] {groups : List (List (RecordBatch τ ν))}
    (h : groups.foldlM (Table.writeSegment env current minActive) p = .ok p') : Edits anyAllocation minActive p p' :=
  foldlM_ok (P := Edits anyAllocation minActive p) (fun _ _ _ hs hstep => hs.trans (writeSegment_edits hstep)) .refl h

theorem writeBitmaps_edits {deletes : SegmentId → Option (Finset Nat)} {ids : List SegmentId}
    (h : ids.foldlM (Table.writeBitmap deletes minActive) p = .ok p') : Edits anyAllocation minActive p p' :=
  foldlM_ok (P := Edits anyAllocation minActive p) (fun _ _ _ hs hstep => hs.trans (writeBitmap_edits hstep)) .refl h

theorem convertSegments_edits [DecidableEq τ] {before : TableSchema τ} {s : Snapshot τ ν} {sources : List SegmentEntry}
    (h : Table.convertSegments env (Table.writeSegment env current minActive) s sources before current p = .ok p') :
    Edits anyAllocation minActive p p' :=
  Table.convertSegments_ok (P := Edits anyAllocation minActive p)
    (fun _ _ _ hs hstep => hs.trans (writeSegment_edits hstep)) .refl h

end Writes

/-- A rewrite whose segments are distinct and still in the manifest, each as it was read. -/
structure Rewrite.Current (rewrite : Rewrite τ ν) (m : Manifest) : Prop where
  nodup : rewrite.ids.Nodup
  sources : rewrite.sources.map SegmentEntry.segmentId = rewrite.ids
  unchanged : ∀ entry ∈ rewrite.sources, entry ∈ m.segments

namespace Table

variable {env : Env τ ν} {t t' : Table M}

/-- The snapshot published last is of the commit in force. -/
structure Synced (t : Table M) : Prop where
  txn : t.current.txnId = t.writer.file.committed.metaPage.txnId
  manifest : t.current.manifest = t.writer.file.committed.manifest

theorem synced_publish (t : Table M) : t.publish.Synced := ⟨rfl, rfl⟩

theorem Synced.congr (h : t.Synced) (hcurrent : t'.current = t.current)
    (hfile : t'.writer.file.committed = t.writer.file.committed) : t'.Synced :=
  ⟨by rw [hcurrent, hfile]; exact h.txn, by rw [hcurrent, hfile]; exact h.manifest⟩

theorem foldl_min_le (pins : List (Snapshot τ ν)) (first : Nat) :
    pins.foldl (fun oldest s => min oldest s.txnId) first ≤ first ∧
      ∀ s ∈ pins, pins.foldl (fun oldest s => min oldest s.txnId) first ≤ s.txnId := by
  induction pins generalizing first with
  | nil => exact ⟨le_rfl, by simp⟩
  | cons pin pins ih =>
      obtain ⟨hfirst, hrest⟩ := ih (min first pin.txnId)
      rw [List.foldl_cons]
      refine ⟨hfirst.trans (min_le_left _ _), fun s hs => ?_⟩
      rcases List.mem_cons.mp hs with rfl | hs
      · exact hfirst.trans (min_le_right _ _)
      · exact hrest s hs

/-- No reader is ahead of the commit in force. -/
theorem minActiveTxn_le (h : t.Synced) : t.minActiveTxn ≤ t.writer.file.committed.metaPage.txnId := by
  rw [← h.txn]
  exact (foldl_min_le t.pins _).1

theorem minActiveTxn_le_pin {s : Snapshot τ ν} (hs : s ∈ t.pins) : t.minActiveTxn ≤ s.txnId :=
  (foldl_min_le t.pins _).2 s hs

/-- What holding the writer lock once does to the file: nothing, or one commit. -/
inductive Transition (t t' : Table M) : Prop where
  | quiet (hfile : t'.writer.file = t.writer.file)
  | commit (float : Extent) (p : Pending M) (f : TableFile M)
      (hprepared : Prepared t.minActiveTxn t.writer.file float p) (hnumbered : p.manifest.Numbered)
      (hcommit : TableFile.commit { t.writer.file with io := p.io } p.manifest = .ok f)
      (hfile : t'.writer.file = { f with schema := t'.writer.file.schema })

/-- The file part of an open table, between operations. -/
structure Kept (t : Table M) : Prop where
  sound : t.writer.file.Sound .columnar
  synced : t.Synced
  numbered : t.writer.file.committed.manifest.Numbered

theorem Kept.min_le (h : t.Kept) : t.minActiveTxn ≤ t.writer.file.committed.metaPage.txnId := minActiveTxn_le h.synced

theorem Kept.numbered_begin (h : t.Kept) : t.writer.file.beginManifest.Numbered := h.numbered.congr rfl rfl

/-- A handle that reports another schema is as sound. -/
theorem sound_schema {kind : TableKind} {f : TableFile M} (h : f.Sound kind) (schema : Schema τ) :
    TableFile.Sound kind { f with schema := schema } :=
  ⟨⟨h.settled.accounted, h.settled.inFile, h.settled.refsPos, h.settled.spacePos⟩, h.recovers, h.nextSlot,
    h.otherPage⟩

theorem numbered_commit {p : Pending M} {f f' : TableFile M} {minActive : Nat} {float : Extent}
    (hprepared : Prepared minActive f float p) (hnumbered : p.manifest.Numbered)
    (hcommit : TableFile.commit { f with io := p.io } p.manifest = .ok f') : f'.committed.manifest.Numbered := by
  obtain ⟨e, -, -, -, -, -, -, -, -, -, -, -, -, hmanifest⟩ := TableFile.commit_manifest hprepared.start hcommit
  refine hnumbered.congr ?_ ?_
  · rw [hmanifest]
    exact Manifest.segments_free _
  · rw [hmanifest]
    exact Manifest.nextSegmentId_free _

theorem Kept.transition (h : t.Kept) (hstep : t.Transition t') (hsynced : t'.Synced) : t'.Kept := by
  cases hstep with
  | quiet hfile => exact ⟨hfile ▸ h.sound, hsynced, hfile ▸ h.numbered⟩
  | commit float p f hprepared hnumbered hcommit hfile =>
      refine ⟨?_, hsynced, ?_⟩
      · rw [hfile]
        exact sound_schema (hprepared.commit h.sound h.min_le hcommit) _
      · rw [hfile]
        have hnew : f.committed.manifest.Numbered := numbered_commit hprepared hnumbered hcommit
        exact hnew

/-- What one holding of the writer lock leaves besides its effect on the file. -/
structure Advances (t t' : Table M) : Prop where
  transition : t.Transition t'
  synced : t'.Synced
  pins : t'.pins = t.pins

theorem Kept.advances (h : t.Kept) (hstep : t.Advances t') : t'.Kept := h.transition hstep.transition hstep.synced

/-- What one holding of the writer lock does when it changes no schema: it leaves the file alone, or edits the manifest
in force and commits it. -/
inductive Commits (t t' : Table M) : Prop where
  | quiet (hfile : t'.writer.file = t.writer.file)
  | edits (p : Pending M)
      (hedits : Edits anyAllocation t.minActiveTxn ⟨t.writer.file.io, t.writer.file.beginManifest⟩ p)
      (hcommit : TableFile.commit { t.writer.file with io := p.io } p.manifest = .ok t'.writer.file)

structure Acts (t t' : Table M) : Prop where
  commits : t.Commits t'
  synced : t'.Synced
  pins : t'.pins = t.pins

theorem Kept.advances_of_acts (h : t.Kept) (hstep : t.Acts t') : t.Advances t' := by
  refine ⟨?_, hstep.synced, hstep.pins⟩
  cases hstep.commits with
  | quiet hfile => exact .quiet hfile
  | edits p hedits hcommit =>
      exact .commit Extent.empty p _ ((Prepared.begin h.sound).edits hedits (.inl rfl)) (hedits.numbered h.numbered_begin)
        hcommit rfl

theorem Synced.refl_acts (h : t.Synced) : t.Acts t := ⟨.quiet rfl, h, rfl⟩

theorem appendRows_acts {batches : List (RecordBatch τ ν)} (hok : t.appendRows env batches = .ok t') : t.Acts t' := by
  obtain ⟨frames, wal, -, -, rfl⟩ := appendRows_ok hok
  exact ⟨.quiet rfl, synced_publish _, rfl⟩

theorem insertLocked_acts [DecidableEq τ] (h : t.Synced) {batches : List (RecordBatch τ ν)} {rows : Nat}
    (hok : t.insertLocked env batches = .ok (rows, t')) : t.Acts t' := by
  rcases (insertLocked_ok hok).2 with ⟨-, rfl⟩ | ⟨-, -, happend⟩
  · exact h.refl_acts
  · exact appendRows_acts happend

theorem delete_acts (h : t.Synced) {segmentDeletions : List (SegmentId × List Nat)} {memtableSeqnos : List Nat}
    {deleted : Nat} (hok : t.delete env segmentDeletions memtableSeqnos = .ok (deleted, t')) : t.Acts t' := by
  rcases delete_ok hok with ⟨rfl, -⟩ | ⟨planned, frame, wal, -, -, -, rfl⟩
  · exact h.refl_acts
  · rw [applyDeletes_snd]
    exact ⟨.quiet rfl, synced_publish _, rfl⟩

theorem replaceRows_acts [DecidableEq τ] (h : t.Synced) {segmentDeletions : List (SegmentId × List Nat)}
    {memtableSeqnos : List Nat} {replacements : List (RecordBatch τ ν)} {rows : Nat}
    (hok : t.replaceRows env segmentDeletions memtableSeqnos replacements = .ok (rows, t')) : t.Acts t' := by
  obtain ⟨planned, -, ⟨rfl, -⟩ | ⟨merged, frame, wal, -, -, -, rfl⟩⟩ := replaceRows_ok hok
  · exact h.refl_acts
  · rw [applyDeletes_snd]
    exact ⟨.quiet rfl, synced_publish _, rfl⟩

theorem updateLocked_acts [DecidableEq τ] (h : t.Synced) {segmentDeletions : List (SegmentId × List Nat)}
    {memtableSeqnos : List Nat} {replacements : List (RecordBatch τ ν)} {rows : Nat}
    (hok : t.updateLocked env segmentDeletions memtableSeqnos replacements = .ok (rows, t')) : t.Acts t' := by
  rcases updateLocked_ok hok with ⟨rfl, -⟩ | ⟨-, hreplace⟩
  · exact h.refl_acts
  · exact replaceRows_acts h hreplace

theorem writeStage_edits [DecidableEq τ] {frozen : Frozen τ ν} {pending : Pending M}
    (h : t.writeStage env frozen = .ok pending) :
    Edits anyAllocation t.minActiveTxn ⟨t.writer.file.io, t.writer.file.beginManifest⟩ pending := by
  obtain ⟨groups, -, h⟩ := bind_eq_ok.mp h
  obtain ⟨written, hwritten, h⟩ := bind_eq_ok.mp h
  have hstamp : Edits anyAllocation t.minActiveTxn ⟨t.writer.file.io, t.writer.file.beginManifest⟩
      ⟨t.writer.file.io, t.flushManifest frozen⟩ :=
    .single (.stamp (t.writer.nextLsn - 1) (max frozen.memtable.nextSeqno t.writer.file.committed.manifest.nextSeqno))
  exact (hstamp.trans (writeSegments_edits hwritten)).trans (writeBitmaps_edits h)

theorem flushLocked_acts [DecidableEq τ] (h : t.Synced) {rows : Nat} (hok : t.flushLocked env = .ok (rows, t')) :
    t.Acts t' := by
  rcases flushLocked_ok hok with ⟨-, rfl⟩ | ⟨pending, f, -, hpending, hcommit, rfl⟩
  · exact ⟨.quiet rfl, h.congr rfl rfl, rfl⟩
  · exact ⟨.edits pending (writeStage_edits hpending) hcommit, ⟨rfl, rfl⟩, rfl⟩

theorem deleteSegments_acts (h : t.Synced) {segmentIds : List SegmentId} {deleted : Nat}
    (hok : t.deleteSegments segmentIds = .ok (deleted, t')) : t.Acts t' := by
  rcases deleteSegments_ok hok with ⟨-, rfl⟩ | ⟨-, f, hcommit, rfl⟩
  · rw [Writer.forgetAll_eq]
    exact ⟨.quiet rfl, h.congr rfl rfl, rfl⟩
  · refine ⟨.edits _ (.single (.retire segmentIds _ (.refl _))) hcommit, synced_publish _, ?_⟩
    rfl

theorem writeSegment_appends [DecidableEq τ] {current : TableSchema τ} {minActive : Nat} {p p' : Pending M}
    {batches : List (RecordBatch τ ν)} (h : writeSegment env current minActive p batches = .ok p') :
    p.manifest.segments <+: p'.manifest.segments := by
  rcases writeSegment_ok h with ⟨-, rfl⟩ | ⟨data, e, m, io, -, -, hwrite, rfl⟩
  · exact List.prefix_rfl
  · obtain ⟨-, hpos, halloc, -⟩ := writeAllocated_ok isPowerOfTwo_segmentAlign hwrite
    obtain ⟨frees, fileLen, hm⟩ := allocate_segments p.manifest minActive hpos isPowerOfTwo_segmentAlign
    rw [halloc] at hm
    dsimp only at hm
    rw [hm]
    exact List.prefix_append _ _

theorem writeSegments_appends [DecidableEq τ] {current : TableSchema τ} {minActive : Nat} {p p' : Pending M}
    {groups : List (List (RecordBatch τ ν))}
    (h : groups.foldlM (writeSegment env current minActive) p = .ok p') :
    p.manifest.segments <+: p'.manifest.segments :=
  foldlM_ok (P := fun q : Pending M => p.manifest.segments <+: q.manifest.segments)
    (fun _ _ _ hs hstep => hs.trans (writeSegment_appends hstep)) List.prefix_rfl h

theorem compactLocked_edits [DecidableEq τ] (h : t.writer.file.committed.manifest.Numbered) {rewrite : Rewrite τ ν}
    {groups : List (List (RecordBatch τ ν))} {pending : Pending M} (hcurrent : rewrite.Current t.writer.file.committed.manifest)
    (hpending : groups.foldlM (writeSegment env t.schema t.minActiveTxn)
      ⟨t.writer.file.io, t.writer.file.beginManifest⟩ = .ok pending) :
    Edits anyAllocation t.minActiveTxn ⟨t.writer.file.io, t.writer.file.beginManifest⟩
      ⟨pending.io, pending.manifest.retire rewrite.ids rewrite.sources⟩ := by
  have hedits := writeSegments_edits hpending
  have hnumbered := hedits.numbered (h.congr rfl rfl)
  have hperm := hnumbered.perm_of_sources (hcurrent.sources.symm ▸ hcurrent.nodup) fun entry hentry =>
    (writeSegments_appends hpending).subset (hcurrent.unchanged entry hentry)
  rw [hcurrent.sources] at hperm
  exact hedits.tail (.retire rewrite.ids rewrite.sources hperm)

theorem compactLocked_acts [DecidableEq τ] (h : t.Synced) (hnumbered : t.writer.file.committed.manifest.Numbered)
    {rewrite : Rewrite τ ν} {rows : Nat} (hcurrent : rewrite.Current t.writer.file.committed.manifest)
    (hok : t.compactLocked env rewrite = .ok (rows, t')) : t.Acts t' := by
  rcases compactLocked_ok hok with ⟨-, rfl⟩ | ⟨groups, pending, f, -, -, hpending, hcommit, rfl⟩
  · exact h.refl_acts
  · exact ⟨.edits _ (compactLocked_edits hnumbered hcurrent hpending) hcommit, synced_publish _, rfl⟩

theorem readSource_ok {id : SegmentId} {read : List (RecordBatch τ ν) × SegmentEntry} (h : t.readSource env id = .ok read) :
    read.2 ∈ t.current.manifest.segments ∧ read.2.segmentId = id := by
  unfold readSource at h
  split at h
  · cases h
  · next entry hentry =>
      obtain ⟨batches, -, h⟩ := bind_eq_ok.mp h
      rw [← Except.ok.inj h]
      exact Manifest.Numbered.mem_of_segment hentry

theorem compactRead_sources {ids : List SegmentId} {rewrite : Rewrite τ ν} (hok : t.compactRead env ids = .ok rewrite) :
    rewrite.sources.map SegmentEntry.segmentId = rewrite.ids := by
  obtain ⟨hrids, -, read, hread, -, hsources⟩ := compactRead_ok hok
  rw [hsources, hrids, List.map_map]
  exact (mapM_map hread fun id r hr => (readSource_ok hr).2).trans (List.map_id' ids)

theorem compactRead_listed (h : t.Synced) {ids : List SegmentId} {rewrite : Rewrite τ ν}
    (hok : t.compactRead env ids = .ok rewrite) : ∀ entry ∈ rewrite.sources, entry ∈ t.writer.file.committed.manifest.segments := by
  obtain ⟨-, -, read, hread, -, hsources⟩ := compactRead_ok hok
  intro entry hentry
  rw [hsources] at hentry
  obtain ⟨r, hr, rfl⟩ := List.mem_map.mp hentry
  obtain ⟨id, -, hid⟩ := mapM_mem hread hr
  rw [← h.manifest]
  exact (readSource_ok hid).1

theorem compactRead_current (h : t.Synced) {ids : List SegmentId} {rewrite : Rewrite τ ν} (hids : ids.Nodup)
    (hok : t.compactRead env ids = .ok rewrite) : rewrite.Current t.writer.file.committed.manifest :=
  ⟨(compactRead_ok hok).1 ▸ hids, compactRead_sources hok, compactRead_listed h hok⟩

theorem setSchemaLocked_advances [DecidableEq τ] (h : t.Kept) {before after : TableSchema τ} {s : Snapshot τ ν}
    (hok : t.setSchemaLocked env before after false s = .ok t') : t.Advances t' := by
  obtain ⟨t₁, hchange, rfl⟩ := setSchemaLocked_ok hok
  obtain ⟨-, extent, file, hwrite, ⟨-, f, hcommit, rfl⟩ | ⟨hfalse, -⟩⟩ := commitSchema_ok hchange
  · obtain ⟨-, -, -, hprepared⟩ := Prepared.beginSchema h.sound hwrite
    exact ⟨.commit extent _ f hprepared (h.numbered.congr rfl rfl) hcommit rfl, synced_publish _, rfl⟩
  · cases hfalse

end Table

end LocalTables
