import LocalTables.Lib.Simulation
import LocalTables.Table.Flushed

/-! Commits that leave the log alone: a compaction, and a drop of segments. The records in the log were written against the
manifest before, and replaying them over the new one comes to the same: what they say of a segment that is gone is skipped,
and they say nothing of a new one. -/

namespace LocalTables

variable {τ ν : Type} {M : Media τ ν}

namespace Table

variable {env : Env τ ν} {t t' : Table M} {old fresh : List (WalRecord τ ν)}

/-- What a step does to the segments listed when it leaves the log and the memtable alone. -/
structure Relists (t t' : Table M) : Prop where
  wal : t'.writer.wal = t.writer.wal
  memtable : t'.writer.memtable = t.writer.memtable
  schema : t'.schema = t.schema
  seqno : t'.writer.file.committed.manifest.nextSeqno = t.writer.file.committed.manifest.nextSeqno
  next : t.writer.file.committed.manifest.nextSegmentId ≤ t'.writer.file.committed.manifest.nextSegmentId
  listed : ∀ entry ∈ t'.writer.file.committed.manifest.segments,
    entry.segmentId < t.writer.file.committed.manifest.nextSegmentId → entry ∈ t.writer.file.committed.manifest.segments
  stored : ∀ entry ∈ t'.writer.file.committed.manifest.segments,
    entry.segmentId < t.writer.file.committed.manifest.nextSegmentId →
      loadDeletes t'.writer.file.io.file entry = loadDeletes t.writer.file.io.file entry
  deletes : ∀ entry ∈ t'.writer.file.committed.manifest.segments,
    entry.segmentId < t.writer.file.committed.manifest.nextSegmentId →
      (t'.writer.deletes entry.segmentId).getD ∅ = (t.writer.deletes entry.segmentId).getD ∅
  dirty : ∀ entry ∈ t'.writer.file.committed.manifest.segments,
    entry.segmentId ∈ t.writer.dirtyDeletes → entry.segmentId ∈ t'.writer.dirtyDeletes ∨
      (t.writer.deletes entry.segmentId).getD ∅ = ∅
  new : ∀ entry ∈ t'.writer.file.committed.manifest.segments,
    t.writer.file.committed.manifest.nextSegmentId ≤ entry.segmentId →
      loadDeletes t'.writer.file.io.file entry = .ok ∅ ∧ (t'.writer.deletes entry.segmentId).getD ∅ = ∅

namespace Relists

theorem saved (h : t.Relists t') (hsaved : t.Saved) : t'.Saved := by
  intro entry hentry
  by_cases hbound : entry.segmentId < t.writer.file.committed.manifest.nextSegmentId
  · obtain ⟨rows, hrows, hsub, hclean⟩ := hsaved entry (h.listed entry hentry hbound)
    rw [h.stored entry hentry hbound, h.deletes entry hentry hbound]
    refine ⟨rows, hrows, hsub, ?_⟩
    intro hnot
    by_cases hdirty : entry.segmentId ∈ t.writer.dirtyDeletes
    · have hnone := (h.dirty entry hentry hdirty).resolve_left hnot
      rw [hnone] at hsub ⊢
      exact (Finset.subset_empty.mp hsub).symm
    · exact hclean hdirty
  · obtain ⟨hload, hnone⟩ := h.new entry hentry (Nat.not_lt.mp hbound)
    exact ⟨∅, hload, Finset.empty_subset _, fun _ => hnone⟩

/-- What the new file opens to keeps track of what the old one would have opened to. -/
theorem tracked (h : t.Relists t') (hsaved : t.Saved) (hnumbered : t.writer.file.committed.manifest.Numbered) {w' : Writer M}
    (hbase : t'.Base w') :
    ∃ w, t.Base w ∧ w.Tracks t.writer.file.committed.manifest.nextSegmentId w' := by
  have hloads : ∀ entry ∈ t.writer.file.committed.manifest.segments,
      ∃ rows, loadDeletes t.writer.file.io.file entry = .ok rows := by
    intro entry hentry
    obtain ⟨rows, hrows, -⟩ := hsaved entry hentry
    exact ⟨rows, hrows⟩
  obtain ⟨deletes, -, hstored, hlisted⟩ := loadAllDeletes_ok hnumbered hloads
  let w : Writer M := { w' with
    file := t.writer.file
    deletes := deletes
    memtable := Memtable.new t.schema.schema t.writer.file.committed.manifest.nextSeqno }
  refine ⟨w, ⟨rfl, rfl, hstored, hlisted⟩, ?_, ?_, ?_, ?_, ?_⟩
  · rw [hbase.memtable, h.schema, h.seqno]
  · rintro id ⟨entry, hentry, rfl⟩ hbound
    rw [hbase.manifest] at hentry
    exact ⟨entry, h.listed entry hentry hbound, rfl⟩
  · rintro id ⟨entry, hentry, rfl⟩ hbound
    rw [hbase.manifest] at hentry
    have hnow := hbase.stored entry hentry
    rw [h.stored entry hentry hbound, hstored entry (h.listed entry hentry hbound)] at hnow
    exact (Except.ok.inj hnow).symm
  · intro id hbound
    by_cases hthere : t'.writer.file.committed.manifest.Lists id
    · obtain ⟨entry, hentry, rfl⟩ := hthere
      have hnow := (hbase.stored entry hentry).symm.trans (h.new entry hentry hbound).1
      exact Except.ok.inj hnow
    · cases hrows : w'.deletes id with
      | none => rfl
      | some rows => exact absurd (hbase.listed id rows hrows) hthere
  · intro id rows hrows
    have hmanifest : w'.file.committed.manifest = t'.writer.file.committed.manifest := hbase.manifest
    rw [hmanifest]
    exact hbase.listed id rows hrows

end Relists

section Steps

variable [DecidableEq τ]

/-- A commit that leaves the log alone keeps the table durable. -/
theorem Durable.relisted (h : t.Durable env old fresh) (hrelists : t.Relists t') (hstep : Locked env t t') (hacts : t.Acts t')
    (hfresh : t'.Fresh) (hlogged : t'.Logged env old fresh ∧ t'.unflushed (old ++ fresh) = t.unflushed (old ++ fresh)) :
    t'.Durable env old fresh := by
  apply h.stepped hstep hacts hrelists.schema hfresh hlogged.1
  · rw [hrelists.wal, (hacts.readSchema h.kept).1]
    exact h.owned
  · exact hrelists.saved h.saved
  · rw [hlogged.2]
    intro record hrecord id hid
    exact (h.named record hrecord id hid).trans_le hrelists.next
  · rw [hrelists.seqno, hrelists.memtable]
    exact h.seqno
  · intro w' hw'
    obtain ⟨w, hw, htracks⟩ := hrelists.tracked h.saved h.kept.numbered hw'
    obtain ⟨u, hfold, hmirrors⟩ := h.replays w hw
    obtain ⟨u', hfold', htracks'⟩ := Simulation.foldlM_related
      (R := Writer.Tracks t.writer.file.committed.manifest.nextSegmentId)
      (fun record hrecord _ _ _ hs hok => hs.replayRecord (h.named record hrecord) hok) htracks hfold
    rw [hlogged.2]
    refine ⟨u', hfold', ?_⟩
    have hfile : u'.file = w'.file := foldlM_ok (f := replayRecord env) (P := fun q : Writer M => q.file = w'.file)
      (fun _ _ _ hs hone => (replayRecord_file hone).trans hs) rfl hfold'
    apply hmirrors.tracked htracks' (by rw [hfile, hw'.manifest]) hrelists.memtable
    · rintro id ⟨entry, hentry, rfl⟩ hbound
      exact hrelists.deletes entry hentry hbound
    · rintro id ⟨entry, hentry, rfl⟩ hbound
      exact (hrelists.new entry hentry hbound).2

omit [DecidableEq τ] in
theorem mem_forgotten {dirty ids : List SegmentId} {id : SegmentId} (h : id ∈ dirty) (hid : id ∉ ids) :
    id ∈ ids.foldl List.erase dirty := by
  rw [← List.diff_eq_foldl]
  exact List.mem_diff_of_mem h hid

/-- A compaction lists new segments in place of those it read. -/
theorem compactLocked_relists (h : t.Whole env) (hsaved : t.Saved) {ids : List SegmentId} {rewrite : Rewrite τ ν} {rows : Nat}
    (hids : ids.Nodup) (hread : t.compactRead env ids = .ok rewrite)
    (hok : t.compactLocked env rewrite = .ok (rows, t')) : t' = t ∨ t.Relists t' := by
  rcases compactLocked_ok hok with ⟨-, rfl⟩ | ⟨groups, pending, f, -, -, hpending, hcommit, rfl⟩
  · exact .inl rfl
  · have hcurrent := compactRead_current h.housed.synced hids hread
    have hsources := compactRead_sources hread
    have hbegin : Drafted t.minActiveTxn t.writer.file ⟨t.writer.file.io, t.writer.file.beginManifest⟩ := .begin h.housed.roomy
    have hedits := compactLocked_edits h.housed.numbered hcurrent hpending
    have hstart : t.writer.file.beginManifest.Saved t.writer.file.io.file t.writer.deletes t.writer.dirtyDeletes := hsaved
    obtain ⟨new, hwrote, -⟩ := writeSegments_wrote hbegin h.housed.min_le hpending
    have hretired : Manifest.Saved (M := M) (pending.manifest.retire rewrite.ids rewrite.sources) pending.io.file
        t.writer.deletes t.writer.dirtyDeletes := by
      intro entry hentry
      rw [Manifest.segments_retire] at hentry
      exact (hstart.writeSegments hbegin h.housed.min_le h.tidy.known hpending) entry (List.mem_of_mem_filter hentry)
    have hdrafted := hbegin.edits hedits
    have hcommitted := Manifest.Saved.commit (p := ⟨pending.io, pending.manifest.retire rewrite.ids rewrite.sources⟩) hretired
      hdrafted h.housed.min_le hcommit
    obtain ⟨hstamps, -, -, -, hsegments, hnext⟩ := TableFile.commit_stamps hcommit
    have hkept : ∀ entry ∈ f.committed.manifest.segments, entry ∈ pending.manifest.segments ∧
        entry.segmentId ∉ rewrite.sources.map SegmentEntry.segmentId := by
      intro entry hentry
      rw [hsegments, Manifest.segments_retire] at hentry
      obtain ⟨hmem, hnot⟩ := List.mem_filter.mp hentry
      rw [hsources]
      exact ⟨hmem, by simpa using hnot⟩
    have hlisted : ∀ entry ∈ f.committed.manifest.segments,
        entry.segmentId < t.writer.file.committed.manifest.nextSegmentId →
          entry ∈ t.writer.file.committed.manifest.segments := by
      intro entry hentry hbound
      have hmem := (hkept entry hentry).1
      rw [hwrote.segments] at hmem
      rcases List.mem_append.mp hmem with hold | hnew
      · exact hold
      · obtain ⟨x, hx, rfl⟩ := List.mem_map.mp hnew
        exact absurd hbound (Nat.not_lt.mpr (hwrote.fresh x hx))
    rw [Writer.forgetAll_eq]
    refine .inr ⟨rfl, rfl, rfl, ?_, ?_, hlisted, ?_, ?_, ?_, ?_⟩
    · have hseqno := congrArg (fun stamps => stamps.2.1) hstamps
      have hpendingStamps := congrArg (fun stamps => stamps.2.1) ((Manifest.stamps_retire pending.manifest rewrite.ids
        rewrite.sources).trans (writeSegments_stamps hpending))
      exact hseqno.trans hpendingStamps
    · change _ ≤ f.committed.manifest.nextSegmentId
      rw [hnext, Manifest.retire, Manifest.freeAll_eq]
      exact hwrote.next
    · intro entry hentry hbound
      have hmem : entry ∈ (pending.manifest.retire rewrite.ids rewrite.sources).segments := hsegments ▸ hentry
      have hold : entry ∈ t.writer.file.beginManifest.segments := hlisted entry hentry hbound
      refine (hdrafted.commit_loadDeletes h.housed.min_le hcommit hmem).trans ?_
      exact hbegin.loadDeletes h.housed.min_le (hbegin.edits_keeps (writeSegments_edits hpending)) hold
    · intro entry hentry _
      dsimp only [publish]
      rw [if_neg (hkept entry hentry).2]
    · intro entry hentry hdirty
      exact .inl (mem_forgotten hdirty (hkept entry hentry).2)
    · intro entry hentry hbound
      have hnone : t.writer.deletes entry.segmentId = none := by
        by_contra hsome
        obtain ⟨rows, hrows⟩ := Option.ne_none_iff_exists'.mp hsome
        exact absurd (h.tidy.known _ rows hrows) (Nat.not_lt.mpr hbound)
      obtain ⟨stored, hstored, hsub, -⟩ := hcommitted entry hentry
      rw [hnone] at hsub
      rw [Finset.subset_empty.mp hsub] at hstored
      refine ⟨hstored, ?_⟩
      dsimp only [publish]
      rw [if_neg (hkept entry hentry).2, hnone]
      rfl

omit [DecidableEq τ] in
/-- A drop of segments lists the others as they were. -/
theorem deleteSegments_relists (h : t.Whole env) {segmentIds : List SegmentId} (hsafe : t.DropsSafely segmentIds)
    {deleted : Nat} (hok : t.deleteSegments segmentIds = .ok (deleted, t')) : t.Relists t' := by
  have hbelow : ∀ entry ∈ t.writer.file.committed.manifest.segments,
      ¬t.writer.file.committed.manifest.nextSegmentId ≤ entry.segmentId := fun entry hentry =>
    Nat.not_le.mpr (h.housed.numbered.below entry hentry)
  rcases deleteSegments_ok hok with ⟨hzero, rfl⟩ | ⟨-, f, hcommit, rfl⟩
  · rw [Writer.forgetAll_eq]
    refine ⟨rfl, rfl, rfl, rfl, le_rfl, fun _ hentry _ => hentry, fun _ _ _ => rfl, ?_, ?_, ?_⟩
    · intro entry _ _
      exact hsafe.deletes h.tidy hzero entry.segmentId
    · intro entry hentry hdirty
      by_cases hnamed : entry.segmentId ∈ (t.dropped segmentIds).map SegmentEntry.segmentId
      · right
        have hnone := hsafe.deletes h.tidy hzero entry.segmentId
        rw [if_pos hnamed] at hnone
        exact hnone.symm
      · exact .inl (mem_forgotten hdirty hnamed)
    · intro entry hentry hbound
      exact absurd hbound (hbelow entry hentry)
  · have hbegin : Drafted t.minActiveTxn t.writer.file ⟨t.writer.file.io, t.writer.file.beginManifest⟩ := .begin h.housed.roomy
    have hretire : Edit anyAllocation t.minActiveTxn ⟨t.writer.file.io, t.writer.file.beginManifest⟩
        ⟨t.writer.file.io, t.writer.file.beginManifest.retire segmentIds (t.dropped segmentIds)⟩ := .retire _ _ (.refl _)
    have hdrafted := hbegin.edit hretire
    obtain ⟨hstamps, -, -, -, hsegments, hnext⟩ := TableFile.commit_stamps hcommit
    have hkept : ∀ entry ∈ f.committed.manifest.segments, entry ∈ t.writer.file.committed.manifest.segments ∧
        entry.segmentId ∉ (t.dropped segmentIds).map SegmentEntry.segmentId := by
      intro entry hentry
      rw [hsegments, Manifest.segments_retire] at hentry
      obtain ⟨hmem, hnot⟩ := List.mem_filter.mp hentry
      refine ⟨hmem, ?_⟩
      intro hdropped
      obtain ⟨other, hother, hsame⟩ := List.mem_map.mp hdropped
      exact (of_decide_eq_true hnot) (hsame ▸ (mem_dropped.mp hother).2)
    rw [Writer.forgetAll_eq]
    refine ⟨rfl, rfl, rfl, ?_, ?_, fun entry hentry _ => (hkept entry hentry).1, ?_, ?_, ?_, ?_⟩
    · have hseqno := congrArg (fun stamps => stamps.2.1) hstamps
      have hretired := congrArg (fun stamps => stamps.2.1) (Manifest.stamps_retire t.writer.file.beginManifest segmentIds
        (t.dropped segmentIds))
      exact hseqno.trans hretired
    · change _ ≤ f.committed.manifest.nextSegmentId
      rw [hnext, Manifest.retire, Manifest.freeAll_eq]
      rfl
    · intro entry hentry _
      have hmem : entry ∈ (t.writer.file.beginManifest.retire segmentIds (t.dropped segmentIds)).segments :=
        hsegments ▸ hentry
      exact hdrafted.commit_loadDeletes h.housed.min_le hcommit hmem
    · intro entry hentry _
      dsimp only [publish]
      rw [if_neg (hkept entry hentry).2]
    · intro entry hentry hdirty
      exact .inl (mem_forgotten hdirty (hkept entry hentry).2)
    · intro entry hentry hbound
      exact absurd hbound (hbelow entry (hkept entry hentry).1)

theorem Durable.compactLocked (h : t.Durable env old fresh) {ids : List SegmentId} {rewrite : Rewrite τ ν} {rows : Nat}
    (hids : ids.Nodup) (hread : t.compactRead env ids = .ok rewrite)
    (hok : t.compactLocked env rewrite = .ok (rows, t')) : t'.Durable env old fresh := by
  rcases compactLocked_relists h.whole h.saved hids hread hok with rfl | hrelists
  · exact h
  · have hstep : Locked env t t' := .compact ids hids hread hok
    have hacts := compactLocked_acts h.kept.synced h.kept.numbered (compactRead_current h.kept.synced hids hread) hok
    apply h.relisted hrelists hstep hacts _ (h.logged.compactLocked hok)
    rcases compactLocked_ok hok with ⟨-, rfl⟩ | ⟨groups, pending, f, -, -, -, -, rfl⟩
    · exact h.whole.fresh
    · exact fresh_publish _

theorem Durable.deleteSegments (h : t.Durable env old fresh) {segmentIds : List SegmentId} (hsafe : t.DropsSafely segmentIds)
    {deleted : Nat} (hok : t.deleteSegments segmentIds = .ok (deleted, t')) : t'.Durable env old fresh :=
  h.relisted (deleteSegments_relists h.whole hsafe hok) (.deleteSegments segmentIds hok)
    (deleteSegments_acts h.kept.synced hok) (hsafe.fresh h.whole.tidy h.whole.fresh hok) (h.logged.deleteSegments hok)

end Steps

end Table

end LocalTables
