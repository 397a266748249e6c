import LocalTables.Table.Faults
import LocalTables.Table.Scanned

/-! What dropping segments takes from readers: now, in everything that is published since, and after the table is opened
again. Where no live row is left to drop, the call returns without a commit and has forgotten the deletions all the same. -/

namespace LocalTables

variable {τ ν : Type} {M : Media τ ν}

/-- The rows of a segment that a snapshot shows, by position. -/
def Snapshot.shownIn (s : Snapshot τ ν) (id : SegmentId) : Finset Nat :=
  match s.manifest.segment id with
  | none => ∅
  | some entry => Finset.range entry.rowCount \ (s.deletes id).getD ∅

/-- A manifest in which a segment, if it is listed, has no rows. -/
def Manifest.Bare (m : Manifest) (id : SegmentId) : Prop := ∀ entry ∈ m.segments, entry.segmentId = id → entry.rowCount = 0

theorem Manifest.Bare.succeeds {m m' : Manifest} {id : SegmentId} (h : m.Bare id) (hnext : m.Succeeds m')
    (hgiven : id < m.nextSegmentId) : m'.Bare id := by
  rintro entry hentry rfl
  rcases hnext.listed entry hentry with ⟨old, hold, hbody⟩ | hnew
  · obtain ⟨hid, -, -, hrows⟩ := SegmentEntry.eq_of_body hbody
    rw [← hrows]
    exact h old hold hid
  · exact absurd hgiven (Nat.not_lt.mpr hnew)

/-- A snapshot of a bare segment shows nothing of it. -/
theorem Snapshot.shownIn_bare {s : Snapshot τ ν} {id : SegmentId} (h : s.manifest.Bare id) : s.shownIn id = ∅ := by
  rw [Snapshot.shownIn]
  cases hentry : s.manifest.segment id with
  | none => rfl
  | some entry =>
      obtain ⟨hmem, hid⟩ := Manifest.Numbered.mem_of_segment hentry
      dsimp only
      rw [h entry hmem hid, Finset.range_zero, Finset.empty_sdiff]

namespace Table

variable {env : Env τ ν} {t t' t₁ : Table M} {segmentIds : List SegmentId} {deleted : Nat}

/-- Of the segments named that are listed, one has a live row, or none has a deleted one. -/
def DropsSafely (t : Table M) (segmentIds : List SegmentId) : Prop :=
  (∃ entry ∈ t.dropped segmentIds, (Finset.range entry.rowCount \ (t.writer.deletes entry.segmentId).getD ∅).Nonempty) ∨
    ∀ entry ∈ t.dropped segmentIds, (t.writer.deletes entry.segmentId).getD ∅ = ∅

/-- Runs of a new table in which every call that dropped segments was of that kind. -/
inductive Tended [DecidableEq τ] (env : Env τ ν) : Table M → Prop where
  | create {t : Table M} (schema : Schema τ) (fingerprint : Schema τ → Nat) (newTableUuid : Extent → List UInt8)
      (h : Table.create env M schema fingerprint newTableUuid none = .ok t) : Tended env t
  | step {t t' : Table M} (hrun : Tended env t) (hstep : Locked env t t')
      (hdrops : ∀ segmentIds deleted, t.deleteSegments segmentIds = .ok (deleted, t') → t.DropsSafely segmentIds) :
      Tended env t'

/-- What a call that dropped segments did: none of their rows is shown now, by what is published next or ever since, or by the
table opened again; what is shown of other segments and of the memtable is as it was; and as many rows were deleted as were
shown. -/
structure DropsExactly [DecidableEq τ] (env : Env τ ν) (t : Table M) (segmentIds : List SegmentId) (deleted : Nat)
    (t' : Table M) : Prop where
  now : ∀ id ∈ segmentIds, t'.current.shownIn id = ∅ ∧ t'.publish.current.shownIn id = ∅
  others : ∀ id ∉ segmentIds, t'.current.shownIn id = t.current.shownIn id ∧
    t'.publish.current.shownIn id = t.current.shownIn id
  memtable : rowsOf t'.current.memtable = rowsOf t.current.memtable ∧
    rowsOf t'.publish.current.memtable = rowsOf t.current.memtable
  count : deleted = ∑ id ∈ segmentIds.toFinset, (t.current.shownIn id).card
  later : ∀ t₁, Relation.ReflTransGen (Locked env) t' t₁ → ∀ id ∈ segmentIds,
    id < t.writer.file.committed.manifest.nextSegmentId → t₁.current.shownIn id = ∅ ∧ t₁.publish.current.shownIn id = ∅ ∧
      ∀ t₂, t₁.reopen env = .ok t₂ → t₂.current.shownIn id = ∅ ∧ t₂.publish.current.shownIn id = ∅

section Shown

theorem getD_filter_nonempty (rows : Option (Finset Nat)) : (rows.filter fun rows => rows ≠ ∅).getD ∅ = rows.getD ∅ := by
  cases rows with
  | none => rfl
  | some rows =>
      rw [Option.filter_some]
      split
      · rfl
      · next hempty =>
          have hrows : rows = ∅ := by simpa using hempty
          rw [hrows]
          rfl

/-- What the next snapshot will show of a segment. -/
theorem shownIn_publish (t : Table M) (id : SegmentId) : t.publish.current.shownIn id =
    match t.writer.file.committed.manifest.segment id with
    | none => ∅
    | some entry => Finset.range entry.rowCount \ (t.writer.deletes id).getD ∅ := by
  have hdeletes : (t.publish.current.deletes id).getD ∅ = (t.writer.deletes id).getD ∅ :=
    getD_filter_nonempty (t.writer.deletes id)
  rw [Snapshot.shownIn, hdeletes]
  rfl

/-- Readers are shown the rows of segments that the writer holds. -/
theorem Fresh.shownIn (h : t.Fresh) (hsynced : t.Synced) (id : SegmentId) :
    t.current.shownIn id = t.publish.current.shownIn id := by
  rw [shownIn_publish, Snapshot.shownIn, hsynced.manifest, h id]

theorem shownIn_publish_congr (hmanifest : t'.writer.file.committed.manifest = t.writer.file.committed.manifest)
    {id : SegmentId} (hdeletes : (t'.writer.deletes id).getD ∅ = (t.writer.deletes id).getD ∅) :
    t'.publish.current.shownIn id = t.publish.current.shownIn id := by
  rw [shownIn_publish, shownIn_publish, hmanifest, hdeletes]

end Shown

section Counted

/-- Where the deletions are of rows of the segment, the two ways to count the others agree. -/
theorem card_kept {rowCount : Nat} {rows : Option (Finset Nat)}
    (hbounded : ∀ deleted, rows = some deleted → ∀ position ∈ deleted, position < rowCount) :
    rowCount - (rows.map fun rows => min rows.card rowCount).getD 0 = (Finset.range rowCount \ rows.getD ∅).card := by
  cases rows with
  | none => simp
  | some deleted =>
      have hsubset : deleted ⊆ Finset.range rowCount := fun position hmem =>
        Finset.mem_range.mpr (hbounded deleted rfl position hmem)
      have hcard : deleted.card ≤ rowCount := by simpa using Finset.card_le_card hsubset
      rw [Option.getD_some, Finset.card_sdiff_of_subset hsubset, Finset.card_range]
      simp [Nat.min_eq_left hcard]

theorem Tidy.kept (h : t.Tidy) {entry : SegmentEntry} (hentry : entry ∈ t.writer.file.committed.manifest.segments) :
    t.publish.current.shownIn entry.segmentId =
      Finset.range entry.rowCount \ (t.writer.deletes entry.segmentId).getD ∅ := by
  rw [shownIn_publish, h.numbered.segment_of_mem hentry]

theorem mem_dropped {segmentIds : List SegmentId} {entry : SegmentEntry} : entry ∈ t.dropped segmentIds ↔
    entry ∈ t.writer.file.committed.manifest.segments ∧ entry.segmentId ∈ segmentIds := by
  rw [dropped, List.mem_filter, decide_eq_true_iff]

/-- What a drop counts is what the writer would show of the segments named. -/
theorem Tidy.droppedRows (h : t.Tidy) (segmentIds : List SegmentId) :
    t.droppedRows segmentIds = ∑ id ∈ segmentIds.toFinset, (t.publish.current.shownIn id).card := by
  have hnodup : ((t.dropped segmentIds).map SegmentEntry.segmentId).Nodup :=
    h.numbered.nodup.sublist (List.filter_sublist.map _)
  have hterms : (t.dropped segmentIds).map (fun entry =>
      entry.rowCount - ((t.writer.deletes entry.segmentId).map fun rows => min rows.card entry.rowCount).getD 0) =
      ((t.dropped segmentIds).map SegmentEntry.segmentId).map fun id => (t.publish.current.shownIn id).card := by
    rw [List.map_map]
    refine List.map_congr_left fun entry hentry => ?_
    have hlisted := (mem_dropped.mp hentry).1
    rw [card_kept (h.bounded entry hlisted), Function.comp_apply, h.kept hlisted]
  rw [Table.droppedRows, hterms, ← List.sum_toFinset _ hnodup]
  refine Finset.sum_subset (fun id hmem => ?_) fun id hmem hnot => ?_
  · obtain ⟨entry, hentry, rfl⟩ := List.mem_map.mp (List.mem_toFinset.mp hmem)
    exact List.mem_toFinset.mpr (mem_dropped.mp hentry).2
  · rw [shownIn_publish]
    cases hentry : t.writer.file.committed.manifest.segment id with
    | none => rfl
    | some entry =>
        obtain ⟨hlisted, rfl⟩ := Manifest.Numbered.mem_of_segment hentry
        have hdropped := mem_dropped.mpr ⟨hlisted, List.mem_toFinset.mp hmem⟩
        exact absurd (List.mem_toFinset.mpr (List.mem_map_of_mem hdropped)) hnot

/-- None is counted exactly when no segment that is dropped has a live row. -/
theorem Tidy.droppedRows_eq_zero (h : t.Tidy) {segmentIds : List SegmentId} : t.droppedRows segmentIds = 0 ↔
    ∀ entry ∈ t.dropped segmentIds, Finset.range entry.rowCount \ (t.writer.deletes entry.segmentId).getD ∅ = ∅ := by
  rw [Table.droppedRows, List.sum_eq_zero_iff_forall_eq_nat]
  constructor
  · intro hzero entry hentry
    have hterm := hzero _ (List.mem_map_of_mem hentry)
    rw [card_kept (h.bounded entry (mem_dropped.mp hentry).1)] at hterm
    exact Finset.card_eq_zero.mp hterm
  · intro hnone count hcount
    obtain ⟨entry, hentry, rfl⟩ := List.mem_map.mp hcount
    rw [card_kept (h.bounded entry (mem_dropped.mp hentry).1), hnone entry hentry, Finset.card_empty]

theorem deleteSegments_count {segmentIds : List SegmentId} {deleted : Nat}
    (h : t.deleteSegments segmentIds = .ok (deleted, t')) : deleted = t.droppedRows segmentIds := by
  unfold deleteSegments at h
  dsimp only at h
  split at h
  · next hzero =>
      rw [← (Prod.mk.inj (Except.ok.inj h)).1]
      exact hzero.symm
  · obtain ⟨t₁, -, h⟩ := bind_eq_ok.mp h
    exact (Prod.mk.inj (Except.ok.inj h)).1.symm

end Counted

section Steps

variable [DecidableEq τ]

/-- Whatever a locked step does, the manifest it leaves lists segments that were listed, and new ones. -/
theorem Locked.succeeds (hstep : Locked env t t') :
    t.writer.file.committed.manifest.Succeeds t'.writer.file.committed.manifest := by
  cases hstep with
  | insert batches hok =>
      rcases (insertLocked_ok hok).2 with ⟨-, rfl⟩ | ⟨-, -, happend⟩
      · exact .of_segments rfl rfl
      · obtain ⟨frames, wal, -, -, rfl⟩ := appendRows_ok happend
        exact .of_segments rfl rfl
  | delete segmentDeletions memtableSeqnos hok =>
      rcases delete_ok hok with ⟨rfl, -⟩ | ⟨planned, frame, wal, -, -, -, rfl⟩
      · exact .of_segments rfl rfl
      · rw [applyDeletes_snd]
        exact .of_segments rfl rfl
  | update segmentDeletions memtableSeqnos replacements hok =>
      rcases updateLocked_ok hok with ⟨rfl, -⟩ | ⟨-, hreplace⟩
      · exact .of_segments rfl rfl
      · obtain ⟨planned, -, ⟨rfl, -⟩ | ⟨merged, frame, wal, -, -, -, rfl⟩⟩ := replaceRows_ok hreplace
        · exact .of_segments rfl rfl
        · rw [applyDeletes_snd]
          exact .of_segments rfl rfl
  | flush hok =>
      rcases flushLocked_ok hok with ⟨-, rfl⟩ | ⟨pending, f, -, hpending, hcommit, rfl⟩
      · exact .of_segments rfl rfl
      · exact TableFile.commit_lists (flushed_succeeds hpending) hcommit
  | compact ids hids hread hok =>
      rcases compactLocked_ok hok with ⟨-, rfl⟩ | ⟨groups, pending, f, -, -, hpending, hcommit, rfl⟩
      · exact .of_segments rfl rfl
      · have hbegin : t.writer.file.committed.manifest.Succeeds t.writer.file.beginManifest := .of_segments rfl rfl
        exact TableFile.commit_lists ((hbegin.trans (writeSegments_succeeds hpending)).trans (.retire _ _ _)) hcommit
  | deleteSegments segmentIds hok =>
      rcases deleteSegments_ok hok with ⟨-, rfl⟩ | ⟨-, f, hcommit, rfl⟩
      · rw [Writer.forgetAll_eq]
        exact .of_segments rfl rfl
      · have hbegin : t.writer.file.committed.manifest.Succeeds t.writer.file.beginManifest := .of_segments rfl rfl
        exact TableFile.commit_lists (hbegin.trans (.retire _ segmentIds (t.dropped segmentIds))) hcommit
  | setSchema before after s hok =>
      obtain ⟨t₁, hchange, rfl⟩ := setSchemaLocked_ok hok
      obtain ⟨-, extent, file, -, ⟨-, f, hcommit, rfl⟩ | ⟨hfalse, -⟩⟩ := commitSchema_ok hchange
      · have hlists : t.writer.file.committed.manifest.Succeeds { t.writer.file.beginManifest with schema := extent } :=
          .of_segments rfl rfl
        have hcommitted := TableFile.commit_lists hlists hcommit
        exact hcommitted
      · cases hfalse
  | pin => exact .of_segments rfl rfl
  | unpin index => exact .of_segments rfl rfl

theorem locked_succeeds (hrun : Relation.ReflTransGen (Locked env) t t') :
    t.writer.file.committed.manifest.Succeeds t'.writer.file.committed.manifest := by
  induction hrun with
  | refl => exact .of_segments rfl rfl
  | tail _ hstep ih => exact ih.trans hstep.succeeds

theorem locked_kept (h : t.Isolated) (hrun : Relation.ReflTransGen (Locked env) t t') : t'.Isolated := by
  induction hrun with
  | refl => exact h
  | tail _ hstep ih => exact (hstep.isolated ih).1

/-- Opening the table again finds the commit in force, and may flush what the logs hold. -/
theorem Isolated.reopen (h : t.Isolated) (hopen : t.reopen env = .ok t₁) :
    t.writer.file.committed.manifest.Succeeds t₁.writer.file.committed.manifest ∧ t₁.current.manifest =
      t₁.writer.file.committed.manifest := by
  obtain ⟨file, hfile, hopen⟩ := bind_eq_ok.mp hopen
  obtain ⟨file', hfile', -, -, hcommitted, -⟩ := h.sound.recovers.openFile
  obtain rfl := Except.ok.inj (hfile.symm.trans hfile')
  obtain ⟨w, schema, hw, -, hflush⟩ := Table.fromFile_ok hopen
  have hstart : t.writer.file.committed.manifest.Succeeds w.file.committed.manifest := by
    rw [hw, hcommitted]
    exact .of_segments rfl rfl
  unfold flushIfNeeded at hflush
  split at hflush
  · obtain ⟨⟨rows, t₂⟩, hlocked, hflush⟩ := bind_eq_ok.mp hflush
    obtain rfl := Except.ok.inj hflush
    have hstep : Locked env _ t₂ := .flush hlocked
    refine ⟨hstart.trans hstep.succeeds, ?_⟩
    rcases flushLocked_ok hlocked with ⟨-, rfl⟩ | ⟨pending, f, -, -, -, rfl⟩
    · rfl
    · rfl
  · obtain rfl := Except.ok.inj hflush
    exact ⟨hstart, rfl⟩

end Steps

section Calls

/-- Where no live row is left to drop, safely means that nothing is forgotten. -/
theorem DropsSafely.deletes (hsafe : t.DropsSafely segmentIds) (h : t.Tidy) (hzero : t.droppedRows segmentIds = 0)
    (id : SegmentId) : ((if id ∈ (t.dropped segmentIds).map SegmentEntry.segmentId then none else t.writer.deletes id) :
      Option (Finset Nat)).getD ∅ = (t.writer.deletes id).getD ∅ := by
  have hdead := h.droppedRows_eq_zero.mp hzero
  have hnone := hsafe.resolve_left fun ⟨entry, hentry, hlive⟩ => hlive.ne_empty (hdead entry hentry)
  split
  · next hmem =>
      obtain ⟨entry, hentry, rfl⟩ := List.mem_map.mp hmem
      exact (hnone entry hentry).symm
  · rfl

theorem DropsSafely.fresh (hsafe : t.DropsSafely segmentIds) (h : t.Tidy) (hfresh : t.Fresh)
    (hok : t.deleteSegments segmentIds = .ok (deleted, t')) : t'.Fresh := by
  rcases deleteSegments_ok hok with ⟨hzero, rfl⟩ | ⟨-, f, -, rfl⟩
  · rw [Writer.forgetAll_eq]
    exact fun id => (hfresh id).trans (hsafe.deletes h hzero id).symm
  · exact fresh_publish _

/-- A segment that is dropped has no rows from then on. -/
theorem DropsSafely.bare (hsafe : t.DropsSafely segmentIds) (h : t.Tidy)
    (hok : t.deleteSegments segmentIds = .ok (deleted, t')) {id : SegmentId} (hid : id ∈ segmentIds) :
    t'.writer.file.committed.manifest.Bare id := by
  rcases deleteSegments_ok hok with ⟨hzero, rfl⟩ | ⟨-, f, hcommit, rfl⟩
  · rw [Writer.forgetAll_eq]
    rintro entry hentry rfl
    have hdropped : entry ∈ t.dropped segmentIds := mem_dropped.mpr ⟨hentry, hid⟩
    have hdead := h.droppedRows_eq_zero.mp hzero entry hdropped
    have hnone := hsafe.deletes h hzero entry.segmentId
    rw [if_pos (List.mem_map_of_mem hdropped), Option.getD_none] at hnone
    rw [← hnone, Finset.sdiff_empty] at hdead
    exact Finset.range_eq_empty_iff.mp hdead
  · rintro entry hentry rfl
    exact absurd hid (commit_retires hcommit entry hentry)

/-- What the writer would show of a segment that is not named is as it was. -/
theorem deleteSegments_others (hok : t.deleteSegments segmentIds = .ok (deleted, t')) {id : SegmentId}
    (hid : id ∉ segmentIds) : t'.publish.current.shownIn id = t.publish.current.shownIn id := by
  have hnamed : id ∉ (t.dropped segmentIds).map SegmentEntry.segmentId := fun hmem => by
    obtain ⟨entry, hentry, rfl⟩ := List.mem_map.mp hmem
    exact hid (mem_dropped.mp hentry).2
  rcases deleteSegments_ok hok with ⟨hzero, rfl⟩ | ⟨-, f, hcommit, rfl⟩
  · rw [Writer.forgetAll_eq]
    apply shownIn_publish_congr
    · rfl
    · dsimp only
      rw [if_neg hnamed]
  · obtain ⟨-, -, -, -, hsegments, -⟩ := TableFile.commit_stamps hcommit
    have hsegment : f.committed.manifest.segment id = t.writer.file.committed.manifest.segment id := by
      rw [Manifest.segment, hsegments, Manifest.segments_retire, List.find?_filter, Manifest.segment]
      congr 1
      funext entry
      by_cases hsame : entry.segmentId = id
      · simp [hsame, hid]
      · simp [hsame]
    rw [Writer.forgetAll_eq, shownIn_publish, shownIn_publish]
    dsimp only [publish]
    rw [hsegment, if_neg hnamed]

end Calls

section Runs

variable [DecidableEq τ]

theorem Locked.fresh (hstep : Locked env t t') (h : t.Tidy) (hfresh : t.Fresh)
    (hdrops : ∀ segmentIds deleted, t.deleteSegments segmentIds = .ok (deleted, t') → t.DropsSafely segmentIds) :
    t'.Fresh := by
  rcases hstep.published with hpublished | ⟨hcurrent, hdeletes⟩ | ⟨segmentIds, deleted, hok⟩
  · intro id
    rw [hpublished]
    exact fresh_snapshot t'.writer t'.schema id
  · exact hfresh.congr hcurrent hdeletes
  · exact (hdrops segmentIds deleted hok).fresh h hfresh hok

theorem Tended.reachable (hrun : Tended env t) : Reachable env t := by
  induction hrun with
  | create schema fingerprint newTableUuid h => exact .create schema fingerprint newTableUuid h
  | step _ hstep _ ih => exact ih.step hstep

theorem Tended.fresh (hrun : Tended env t) : t.Fresh := by
  induction hrun with
  | create schema fingerprint newTableUuid h =>
      obtain ⟨file, seed, current, -, -, -, rfl⟩ := create_ok h
      exact fun id => rfl
  | step hrun hstep hdrops ih => exact hstep.fresh hrun.reachable.tidy ih hdrops

omit [DecidableEq τ] in
theorem Isolated.shownIn_bare (h : t.Isolated) {id : SegmentId} (hbare : t.writer.file.committed.manifest.Bare id) :
    t.current.shownIn id = ∅ ∧ t.publish.current.shownIn id = ∅ := by
  refine ⟨Snapshot.shownIn_bare ?_, Snapshot.shownIn_bare hbare⟩
  rw [h.synced.manifest]
  exact hbare

/-- A segment without rows has none in anything that is published since, nor after the table is opened again. -/
theorem Isolated.bare_later (h : t.Isolated) {id : SegmentId} (hbare : t.writer.file.committed.manifest.Bare id)
    (hgiven : id < t.writer.file.committed.manifest.nextSegmentId) (hrun : Relation.ReflTransGen (Locked env) t t₁) :
    t₁.current.shownIn id = ∅ ∧ t₁.publish.current.shownIn id = ∅ ∧
      ∀ t₂, t₁.reopen env = .ok t₂ → t₂.current.shownIn id = ∅ ∧ t₂.publish.current.shownIn id = ∅ := by
  have hlater := locked_succeeds hrun
  have hthen := hbare.succeeds hlater hgiven
  obtain ⟨hcurrent, hpublish⟩ := (locked_kept h hrun).shownIn_bare hthen
  refine ⟨hcurrent, hpublish, fun t₂ hopen => ?_⟩
  obtain ⟨hnext, hmanifest⟩ := (locked_kept h hrun).reopen hopen
  have hopened := hthen.succeeds hnext (hgiven.trans_le hlater.next)
  refine ⟨Snapshot.shownIn_bare ?_, Snapshot.shownIn_bare hopened⟩
  rw [hmanifest]
  exact hopened

/-- Where deletions were forgotten and the segment is still listed, the next snapshot shows all of it. -/
theorem DropsExactly.safely (hexact : DropsExactly env t segmentIds deleted t') (h : t.Tidy)
    (hok : t.deleteSegments segmentIds = .ok (deleted, t')) : t.DropsSafely segmentIds := by
  by_contra hunsafe
  obtain ⟨hdead, hforgets⟩ := not_or.mp hunsafe
  simp only [not_forall] at hforgets
  obtain ⟨entry, hentry, hsome⟩ := hforgets
  obtain ⟨hlisted, hnamed⟩ := mem_dropped.mp hentry
  have hzero : t.droppedRows segmentIds = 0 := h.droppedRows_eq_zero.mpr fun other hother =>
    Finset.not_nonempty_iff_eq_empty.mp fun hlive => hdead ⟨other, hother, hlive⟩
  have htidy' := h.deleteSegments hok
  obtain ⟨-, rfl⟩ := (deleteSegments_ok hok).resolve_right fun hcommitted => hcommitted.1 hzero
  have hshown := (hexact.now entry.segmentId hnamed).2
  rw [Writer.forgetAll_eq] at htidy' hshown
  rw [htidy'.kept hlisted] at hshown
  dsimp only at hshown
  rw [if_pos (List.mem_map_of_mem hentry), Option.getD_none, Finset.sdiff_empty, Finset.range_eq_empty_iff] at hshown
  obtain ⟨position, hposition⟩ := Finset.nonempty_iff_ne_empty.mpr hsome
  cases hrows : t.writer.deletes entry.segmentId with
  | none =>
      rw [hrows] at hposition
      cases hposition
  | some rows =>
      rw [hrows] at hposition
      have hlt := h.bounded entry hlisted rows hrows position hposition
      omega

theorem DropsSafely.exactly (hsafe : t.DropsSafely segmentIds) (h : t.Tidy) (hfresh : t.Fresh) (hisolated : t.Isolated)
    (hok : t.deleteSegments segmentIds = .ok (deleted, t')) : DropsExactly env t segmentIds deleted t' := by
  have hstep : Locked env t t' := .deleteSegments segmentIds hok
  have hisolated' := (hstep.isolated hisolated).1
  have hin := hfresh.shownIn hisolated.synced
  have hin' := (hsafe.fresh h hfresh hok).shownIn hisolated'.synced
  have hbare : ∀ id ∈ segmentIds, t'.writer.file.committed.manifest.Bare id := fun id hid => hsafe.bare h hok hid
  have hmemtable : t'.writer.memtable = t.writer.memtable := by
    rcases deleteSegments_ok hok with ⟨-, rfl⟩ | ⟨-, f, -, rfl⟩
    · rw [Writer.forgetAll_eq]
    · rw [Writer.forgetAll_eq]
      rfl
  have hrows : rowsOf t.writer.memtable.batches = rowsOf t.current.memtable :=
    (Memtable.rowsOf_batches _).trans h.shown.symm
  refine ⟨fun id hid => hisolated'.shownIn_bare (hbare id hid), fun id hid => ?_, ⟨?_, ?_⟩, ?_,
    fun t₁ hlater id hid hgiven => ?_⟩
  · have hothers := (deleteSegments_others hok hid).trans (hin id).symm
    exact ⟨(hin' id).trans hothers, hothers⟩
  · rw [(h.deleteSegments hok).shown, hmemtable, ← Memtable.rowsOf_batches, hrows]
  · change rowsOf t'.writer.memtable.batches = _
    rw [hmemtable, hrows]
  · rw [deleteSegments_count hok, h.droppedRows]
    exact Finset.sum_congr rfl fun id _ => by rw [hin id]
  · exact hisolated'.bare_later (hbare id hid) (hgiven.trans_le hstep.succeeds.next) hlater

/-- Dropping segments deletes their rows for good, and no others, and counts them, exactly where one of the segments dropped
has a live row or none has a deleted one. -/
theorem delete_segments_exactly_iff (hrun : Tended env t) (h : t.deleteSegments segmentIds = .ok (deleted, t')) :
    DropsExactly env t segmentIds deleted t' ↔ t.DropsSafely segmentIds :=
  ⟨fun hexact => hexact.safely hrun.reachable.tidy h,
    fun hsafe => hsafe.exactly hrun.reachable.tidy hrun.fresh hrun.reachable.isolated h⟩

end Runs

section Emptied

/-- No deletion is known of a listed segment. -/
def Undeleted (t : Table M) : Prop :=
  ∀ entry ∈ t.writer.file.committed.manifest.segments, t.writer.deletes entry.segmentId = none

instance (t : Table M) : Decidable t.Undeleted := by unfold Undeleted; infer_instance

theorem Undeleted.safely (h : t.Undeleted) (segmentIds : List SegmentId) : t.DropsSafely segmentIds :=
  .inr fun entry hentry => by rw [h entry (mem_dropped.mp hentry).1, Option.getD_none]

def dropEnv : Env Unit Nat :=
  plainEnv plainOptions [.insert 1 0 ⟨[()], [[7], [8]]⟩, .delete 2 [⟨0, {0}⟩] [], .delete 2 [⟨0, {0, 1}⟩] []]

/-- A table of one segment with two rows, some of them deleted. -/
def twoRowTable (positions : List Nat) : Except Error PlainTable := do
  let t₀ ← Table.create dropEnv (Journal plainSizes) plainSchema (fun _ => 0) (fun _ => []) none
  let (_, t₁) ← t₀.insertLocked dropEnv [⟨plainSchema.fields, [[7], [8]]⟩]
  let (_, t₂) ← t₁.flushLocked dropEnv
  let (_, t) ← t₂.delete dropEnv [(0, positions)] []
  if ¬(t₀.Undeleted ∧ t₁.Undeleted ∧ t₂.Undeleted) then throw (.invalidArgument "deleted before")
  else return t

theorem twoRowTable_tended {positions : List Nat} {t : PlainTable} (h : twoRowTable positions = .ok t) :
    Tended dropEnv t := by
  obtain ⟨t₀, hcreate, h⟩ := bind_eq_ok.mp h
  obtain ⟨⟨_, t₁⟩, hinsert, h⟩ := bind_eq_ok.mp h
  obtain ⟨⟨_, t₂⟩, hflush, h⟩ := bind_eq_ok.mp h
  obtain ⟨⟨_, t₃⟩, hdelete, h⟩ := bind_eq_ok.mp h
  obtain ⟨hundeleted, h⟩ := ite_throw_eq_ok.mp h
  obtain rfl := Except.ok.inj h
  obtain ⟨h₀, h₁, h₂⟩ := not_not.mp hundeleted
  have hcreated : Tended dropEnv t₀ := .create _ _ _ hcreate
  have hinserted := hcreated.step (.insert _ hinsert) fun ids _ _ => h₀.safely ids
  have hflushed := hinserted.step (.flush hflush) fun ids _ _ => h₁.safely ids
  exact hflushed.step (.delete _ _ hdelete) fun ids _ _ => h₂.safely ids

/-- A drop from that table. -/
def dropFromTwo (positions : List Nat) (segmentIds : List SegmentId) : Except Error (PlainTable × Nat × PlainTable) := do
  let t ← twoRowTable positions
  let (deleted, t') ← t.deleteSegments segmentIds
  return (t, deleted, t')

theorem dropFromTwo_drops {positions : List Nat} {t t' : PlainTable}
    (h : dropFromTwo positions segmentIds = .ok (t, deleted, t')) : Tended dropEnv t ∧
      t.deleteSegments segmentIds = .ok (deleted, t') := by
  obtain ⟨t₀, htable, h⟩ := bind_eq_ok.mp h
  obtain ⟨⟨_, t₁⟩, hdrop, h⟩ := bind_eq_ok.mp h
  cases Except.ok.inj h
  exact ⟨twoRowTable_tended htable, hdrop⟩

/-- Dropping a segment with one row deleted, twice and beside one that is not there. -/
theorem drop_half_deleted : ∃ t t' : PlainTable, t.deleteSegments [0, 0, 5] = .ok (1, t') ∧
    DropsExactly dropEnv t [0, 0, 5] 1 t' := by
  have hcheck : (match dropFromTwo [0] [0, 0, 5] with
      | .ok (t, deleted, _) => decide (deleted = 1 ∧ ∃ entry ∈ t.dropped [0, 0, 5],
          (Finset.range entry.rowCount \ (t.writer.deletes entry.segmentId).getD ∅).Nonempty)
      | .error _ => false) = true := by decide +kernel
  cases hrun : dropFromTwo [0] [0, 0, 5] with
  | error e =>
      rw [hrun] at hcheck
      cases hcheck
  | ok result =>
      obtain ⟨t, deleted, t'⟩ := result
      rw [hrun] at hcheck
      obtain ⟨rfl, hlive⟩ := of_decide_eq_true hcheck
      obtain ⟨htended, hdrop⟩ := dropFromTwo_drops hrun
      exact ⟨t, t', hdrop, (delete_segments_exactly_iff htended hdrop).mpr (.inl hlive)⟩

/-- Both rows of the segment are deleted already. The call returns that it deleted none, and the next snapshot shows both. -/
theorem drop_of_emptied_shows_rows : ∃ t t' : PlainTable, Tended dropEnv t ∧ t.deleteSegments [0] = .ok (0, t') ∧
    t.current.shownIn 0 = ∅ ∧ t'.publish.current.shownIn 0 = {0, 1} ∧ ¬DropsExactly dropEnv t [0] 0 t' := by
  have hcheck : (match dropFromTwo [0, 1] [0] with
      | .ok (t, deleted, t') => decide (deleted = 0 ∧ t.current.shownIn 0 = ∅ ∧ t'.publish.current.shownIn 0 = {0, 1})
      | .error _ => false) = true := by decide +kernel
  cases hrun : dropFromTwo [0, 1] [0] with
  | error e =>
      rw [hrun] at hcheck
      cases hcheck
  | ok result =>
      obtain ⟨t, deleted, t'⟩ := result
      rw [hrun] at hcheck
      obtain ⟨rfl, hbefore, hafter⟩ := of_decide_eq_true hcheck
      obtain ⟨htended, hdrop⟩ := dropFromTwo_drops hrun
      refine ⟨t, t', htended, hdrop, hbefore, hafter, fun hexact => ?_⟩
      have hnow := (hexact.now 0 (by simp)).2
      rw [hafter] at hnow
      exact absurd hnow (by decide)

end Emptied

end Table

end LocalTables
