import Mathlib.Algebra.Order.BigOperators.Group.List
import LocalTables.Table.Tidy

/-! Rows under names that last. A row of a segment is named by the segment and its position there, a row of the
memtable by its sequence number. Deleting takes names away, inserting gives out new ones, and neither brings a
name back. A flush writes the live rows of the memtable out under new names. -/

namespace LocalTables

variable {τ ν : Type} {M : Media τ ν}

/-- The name of a row. -/
inductive RowId where
  | segment (id : SegmentId) (position : Nat)
  | memtable (seqno : Nat)
  deriving DecidableEq

/-- The rows a deletion names. -/
def RowId.Named (segmentDeletions : List (SegmentId × List Nat)) (memtableSeqnos : List Nat) : RowId → Prop
  | segment id position => ∃ positions, (id, positions) ∈ segmentDeletions ∧ position ∈ positions
  | memtable seqno => seqno ∈ memtableSeqnos

namespace Table

variable {env : Env τ ν} {t t' t'' : Table M}

/-- A row that is there and not deleted. -/
def Live (t : Table M) : RowId → Prop
  | .segment id position => ∃ entry, t.writer.file.committed.manifest.segment id = some entry ∧
      position < entry.rowCount ∧ position ∉ (t.writer.deletes id).getD ∅
  | .memtable seqno => seqno ∈ t.writer.memtable.liveSeqnos

/-- A name that has been given out. -/
def Given (t : Table M) : RowId → Prop
  | .segment id _ => id < t.writer.file.committed.manifest.nextSegmentId
  | .memtable seqno => seqno < t.writer.memtable.nextSeqno

theorem Tidy.live_given (h : t.Tidy) {id : RowId} (hlive : t.Live id) : t.Given id := by
  cases id with
  | segment id position =>
      obtain ⟨entry, hentry, -⟩ := hlive
      obtain ⟨hmem, hid⟩ := Manifest.Numbered.mem_of_segment hentry
      rw [← hid]
      exact h.numbered.below entry hmem
  | memtable seqno =>
      change seqno ∈ t.writer.memtable.liveSeqnos at hlive
      rw [Memtable.liveSeqnos_eq] at hlive
      obtain ⟨entry, hentry, rfl⟩ := List.mem_map.mp hlive
      exact h.memtable.below entry (List.mem_of_mem_filter hentry)

/-- Time passes: names given out stay given out, and a row that is gone stays gone. -/
structure Ages (t t' : Table M) : Prop where
  given : ∀ id, t.Given id → t'.Given id
  dead : ∀ id, t.Given id → t'.Live id → t.Live id

theorem Ages.refl (t : Table M) : t.Ages t := ⟨fun _ h => h, fun _ _ h => h⟩

theorem Ages.trans (h : t.Ages t') (h' : t'.Ages t'') : t.Ages t'' :=
  ⟨fun id hid => h'.given id (h.given id hid), fun id hid hlive => h.dead id hid (h'.dead id (h.given id hid) hlive)⟩

theorem Ages.lists (h : t.Tidy)
    (hnext : t.writer.file.committed.manifest.Succeeds t'.writer.file.committed.manifest)
    (hdeletes : ∀ id position, position ∈ (t.writer.deletes id).getD ∅ → position ∈ (t'.writer.deletes id).getD ∅)
    (hseqno : t.writer.memtable.nextSeqno ≤ t'.writer.memtable.nextSeqno)
    (hmemtable : ∀ seqno ∈ t'.writer.memtable.liveSeqnos, seqno < t.writer.memtable.nextSeqno →
      seqno ∈ t.writer.memtable.liveSeqnos) : t.Ages t' := by
  refine ⟨fun id hgiven => ?_, fun id hgiven hlive => ?_⟩
  · cases id with
    | segment id position => exact Nat.lt_of_lt_of_le hgiven hnext.next
    | memtable seqno => exact Nat.lt_of_lt_of_le hgiven hseqno
  · cases id with
    | segment id position =>
        obtain ⟨entry, hentry, hlt, hkept⟩ := hlive
        obtain ⟨hmem, rfl⟩ := Manifest.Numbered.mem_of_segment hentry
        rcases hnext.listed entry hmem with ⟨old, hold, hbody⟩ | hnew
        · obtain ⟨hid, -, -, hrows⟩ := SegmentEntry.eq_of_body hbody
          refine ⟨old, ?_, hrows ▸ hlt, fun hdeleted => hkept (hdeletes _ _ hdeleted)⟩
          rw [← hid]
          exact h.numbered.segment_of_mem hold
        · exact absurd hgiven (Nat.not_lt.mpr hnew)
    | memtable seqno => exact hmemtable seqno hlive hgiven

/-- What a deletion leaves: the rows it does not name. -/
theorem live_marked (t' : Table M) {segmentDeletions : List (SegmentId × List Nat)} {memtableSeqnos : List Nat}
    {planned : PlannedDeletes} (hnodup : (segmentDeletions.map Prod.fst).Nodup)
    (hplanned : planDeletes t.writer segmentDeletions memtableSeqnos = .ok planned)
    (hfile : t'.writer.file = t.writer.file) (hdeletes : t'.writer.deletes = markDeletes t.writer.deletes planned.segments)
    (hmemtable : t'.writer.memtable.live = t.writer.memtable.live.filter fun entry => entry.1 ∉ planned.memtable)
    (id : RowId) : t'.Live id ↔ t.Live id ∧ ¬id.Named segmentDeletions memtableSeqnos := by
  cases id with
  | segment id position =>
      simp only [Live, RowId.Named, hfile, hdeletes]
      constructor
      · rintro ⟨entry, hentry, hlt, hgone⟩
        rw [mem_markDeletes hnodup hplanned hentry hlt, not_or] at hgone
        exact ⟨⟨entry, hentry, hlt, hgone.1⟩, hgone.2⟩
      · rintro ⟨⟨entry, hentry, hlt, hold⟩, hnamed⟩
        refine ⟨entry, hentry, hlt, ?_⟩
        rw [mem_markDeletes hnodup hplanned hentry hlt, not_or]
        exact ⟨hold, hnamed⟩
  | memtable seqno =>
      have hmem : planned.memtable = memtableSeqnos.filter fun seqno => ¬t.writer.memtable.isDeleted seqno :=
        (planDeletes_ok hplanned).2.2
      simp only [Live, RowId.Named, Memtable.liveSeqnos_eq, hmemtable, hmem, List.mem_map, List.mem_filter]
      constructor
      · rintro ⟨entry, ⟨hlive, hkept⟩, rfl⟩
        refine ⟨⟨entry, hlive, rfl⟩, fun hnamed => ?_⟩
        have hheld : ¬t.writer.memtable.isDeleted entry.1 = true := by
          have := (List.mem_filter.mp hlive).2
          simpa [Memtable.isDeleted] using this
        simp only [decide_eq_true_iff] at hkept
        exact hkept ⟨hnamed, by simpa using hheld⟩
      · rintro ⟨⟨entry, hlive, rfl⟩, hnamed⟩
        refine ⟨entry, ⟨hlive, ?_⟩, rfl⟩
        simp only [decide_eq_true_iff]
        exact fun hmem => hnamed hmem.1

/-- A deletion that returns has taken away the rows it names and no others. -/
theorem delete_live {segmentDeletions : List (SegmentId × List Nat)} {memtableSeqnos : List Nat}
    {deleted : Nat} (hnodup : (segmentDeletions.map Prod.fst).Nodup)
    (hok : t.delete env segmentDeletions memtableSeqnos = .ok (deleted, t')) (id : RowId) :
    t'.Live id ↔ t.Live id ∧ ¬id.Named segmentDeletions memtableSeqnos := by
  rcases delete_ok hok with ⟨rfl, ⟨rfl, rfl⟩ | ⟨planned, hplanned, hempty⟩⟩ | ⟨planned, frame, wal, hplanned, -, -, rfl⟩
  · have hnone : ¬id.Named [] [] := by cases id <;> simp [RowId.Named]
    exact ⟨fun hlive => ⟨hlive, hnone⟩, fun hlive => hlive.1⟩
  · rw [PlannedDeletes.isEmpty, Bool.and_eq_true_iff, List.isEmpty_iff, List.isEmpty_iff] at hempty
    refine live_marked _ hnodup hplanned rfl ?_ ?_ id
    · rw [hempty.1]
      rfl
    · rw [hempty.2]
      simp
  · refine live_marked _ hnodup hplanned ?_ ?_ ?_ id
    · rw [applyDeletes_snd]
      rfl
    · rw [applyDeletes_snd]
      rfl
    · rw [applyDeletes_snd]
      exact Memtable.live_delete _ _

theorem markDeletes_keeps {segmentDeletions : List (SegmentId × List Nat)} {memtableSeqnos : List Nat}
    {planned : PlannedDeletes} {w : Writer M} (hplanned : planDeletes w segmentDeletions memtableSeqnos = .ok planned)
    {id : SegmentId} {position : Nat} (h : position ∈ (w.deletes id).getD ∅) :
    position ∈ (markDeletes w.deletes planned.segments id).getD ∅ := by
  by_cases hnamed : id ∈ planned.segments.map Prod.fst
  · obtain ⟨rows, hrows⟩ : ∃ rows, markDeletes w.deletes planned.segments id = some rows := by
      generalize w.deletes = deletes
      generalize planned.segments = segments at hnamed
      induction segments generalizing deletes with
      | nil => cases hnamed
      | cons segment segments ih =>
          rw [markDeletes_cons]
          by_cases hlater : id ∈ segments.map Prod.fst
          · exact ih _ hlater
          · rw [markDeletes_of_notMem hlater]
            rw [List.map_cons, List.mem_cons] at hnamed
            rw [hnamed.resolve_right hlater, Function.update_self]
            exact ⟨_, rfl⟩
    rw [hrows, Option.getD_some]
    rcases markDeletes_some hrows with hold | hmem
    · rw [hold] at h
      exact h
    · rw [(planDeletes_ok hplanned).2.1] at hmem
      obtain ⟨deletion, -, heq⟩ := List.mem_map.mp hmem
      obtain ⟨rfl, rfl⟩ := Prod.mk.inj heq
      exact Finset.mem_union_left _ h
  · rw [markDeletes_of_notMem hnamed]
    exact h

theorem appendRows_ages (h : t.Tidy) {batches : List (RecordBatch τ ν)} (hok : t.appendRows env batches = .ok t') :
    t.Ages t' := by
  obtain ⟨frames, wal, -, -, rfl⟩ := appendRows_ok hok
  obtain ⟨-, hlive, hseqno⟩ := planInserts_memtable env h.memtable t.writer.nextLsn batches
  refine .lists h (.of_segments rfl rfl) (fun _ _ hmem => hmem) ?_ fun seqno hmem hlt => ?_
  · dsimp only [publish]
    rw [hseqno]
    exact Nat.le_add_right _ _
  · dsimp only [publish] at hmem
    rw [Memtable.liveSeqnos_eq, hlive, List.map_append, List.mem_append] at hmem
    rw [Memtable.liveSeqnos_eq]
    refine hmem.resolve_right fun hnew => ?_
    obtain ⟨entry, hentry, rfl⟩ := List.mem_map.mp hnew
    obtain ⟨⟨row, index⟩, -, rfl⟩ := List.mem_map.mp hentry
    exact absurd hlt (Nat.not_lt.mpr (Nat.le_add_right _ _))

theorem delete_ages (h : t.Tidy) {segmentDeletions : List (SegmentId × List Nat)} {memtableSeqnos : List Nat}
    {deleted : Nat} (hok : t.delete env segmentDeletions memtableSeqnos = .ok (deleted, t')) : t.Ages t' := by
  rcases delete_ok hok with ⟨rfl, -⟩ | ⟨planned, frame, wal, hplanned, -, -, rfl⟩
  · exact .refl t'
  · rw [applyDeletes_snd]
    refine .lists h (.of_segments rfl rfl) (fun _ _ hmem => markDeletes_keeps hplanned hmem) ?_
      fun seqno hmem _ => ?_
    · dsimp only [publish]
      rw [Memtable.delete_snd]
    · dsimp only [publish] at hmem
      rw [Memtable.liveSeqnos_eq] at hmem ⊢
      rw [Memtable.live_delete] at hmem
      obtain ⟨entry, hentry, rfl⟩ := List.mem_map.mp hmem
      exact List.mem_map_of_mem (List.mem_of_mem_filter hentry)

/-- An update appends as many rows as its replacements have. -/
theorem mergeReplacements_rows [DecidableEq τ] {replacements : List (RecordBatch τ ν)} {merged : Option (RecordBatch τ ν)}
    (h : t.mergeReplacements replacements = .ok merged) :
    (merged.map RecordBatch.numRows).getD 0 = totalRows replacements := by
  unfold mergeReplacements at h
  split at h
  · rw [← Except.ok.inj h]
    rfl
  · rw [← Except.ok.inj h]
    simp [totalRows]
  · obtain ⟨batch, hbatch, h⟩ := bind_eq_ok.mp h
    rw [← Except.ok.inj h]
    unfold concatBatches at hbatch
    dsimp only at hbatch
    split at hbatch
    · rw [← Except.ok.inj hbatch, ← length_rowsOf]
      simp [RecordBatch.numRows]
    · cases hbatch

/-- An update that returns has taken away the rows it names and appended its replacements. -/
theorem replaceRows_live [DecidableEq τ] (h : t.Tidy) {segmentDeletions : List (SegmentId × List Nat)}
    {memtableSeqnos : List Nat} {replacements : List (RecordBatch τ ν)} {rows : Nat}
    (hnodup : (segmentDeletions.map Prod.fst).Nodup)
    (hok : t.replaceRows env segmentDeletions memtableSeqnos replacements = .ok (rows, t')) (id : RowId) :
    t'.Live id ↔ t.Live id ∧ ¬id.Named segmentDeletions memtableSeqnos ∨
      ∃ index < totalRows replacements, id = .memtable (t.writer.memtable.nextSeqno + index) := by
  obtain ⟨planned, hplanned, ⟨rfl, hzero, hempty⟩ | ⟨merged, frame, wal, hmerged, -, -, rfl⟩⟩ := replaceRows_ok hok
  · rw [PlannedDeletes.isEmpty, Bool.and_eq_true_iff, List.isEmpty_iff, List.isEmpty_iff] at hempty
    have hkept := live_marked t' hnodup hplanned rfl (by rw [hempty.1]; rfl) (by rw [hempty.2]; simp) id
    rw [← hkept, hzero]
    simp
  · rw [applyDeletes_snd]
    have hrows := mergeReplacements_rows hmerged
    -- the table between the two halves
    have hkept := live_marked { t with writer := { t.writer with
      deletes := markDeletes t.writer.deletes planned.segments
      memtable := (t.writer.memtable.delete planned.memtable).2 } } hnodup hplanned rfl rfl
      (Memtable.live_delete _ _) id
    cases merged with
    | none =>
        rw [← hrows]
        simp only [Option.map_none, Option.getD_none, Nat.not_lt_zero, false_and, exists_false, or_false]
        exact hkept
    | some batch =>
        rw [← hrows, ← hkept, Option.map_some, Option.getD_some]
        cases id with
        | segment id position => simp [Live, publish]
        | memtable seqno =>
            have hwf := h.memtable.delete planned.memtable
            have hbase : (t.writer.memtable.delete planned.memtable).2.nextSeqno ≤ t.writer.memtable.nextSeqno := by
              rw [Memtable.delete_snd]
            have hlive := Memtable.live_insertAt hwf env hbase batch
            dsimp only [Live, publish]
            rw [Memtable.liveSeqnos_eq, Memtable.liveSeqnos_eq]
            rw [hlive, List.map_append, List.mem_append, Memtable.fst_chunkEntries]
            refine or_congr Iff.rfl ⟨fun hnew => ?_, ?_⟩
            · obtain ⟨index, hindex, rfl⟩ := List.mem_map.mp hnew
              exact ⟨index, List.mem_range.mp hindex, rfl⟩
            · rintro ⟨index, hindex, heq⟩
              exact List.mem_map.mpr ⟨index, List.mem_range.mpr hindex, (RowId.memtable.inj heq).symm⟩

theorem replaceRows_ages [DecidableEq τ] (h : t.Tidy) {segmentDeletions : List (SegmentId × List Nat)}
    {memtableSeqnos : List Nat} {replacements : List (RecordBatch τ ν)} {rows : Nat}
    (hok : t.replaceRows env segmentDeletions memtableSeqnos replacements = .ok (rows, t')) : t.Ages t' := by
  obtain ⟨planned, hplanned, ⟨rfl, -⟩ | ⟨merged, frame, wal, -, -, -, rfl⟩⟩ := replaceRows_ok hok
  · exact .refl t'
  · rw [applyDeletes_snd]
    have hwf := h.memtable.delete planned.memtable
    have hbase : (t.writer.memtable.delete planned.memtable).2.nextSeqno = t.writer.memtable.nextSeqno := by
      rw [Memtable.delete_snd]
    have hold : ∀ seqno ∈ (t.writer.memtable.delete planned.memtable).2.live.map Prod.fst,
        seqno ∈ t.writer.memtable.liveSeqnos := by
      intro seqno hmem
      rw [Memtable.live_delete] at hmem
      rw [Memtable.liveSeqnos_eq]
      obtain ⟨entry, hentry, rfl⟩ := List.mem_map.mp hmem
      exact List.mem_map_of_mem (List.mem_of_mem_filter hentry)
    refine .lists h (.of_segments rfl rfl) (fun _ _ hmem => markDeletes_keeps hplanned hmem) ?_ fun seqno hmem hlt => ?_
    · cases merged with
      | none => exact hbase.ge
      | some batch =>
          dsimp only [publish, Memtable.insertAt]
          split
          · exact hbase.ge
          · exact hbase.ge.trans (Nat.le_max_left _ _)
    · cases merged with
      | none =>
          refine hold seqno ?_
          rw [← Memtable.liveSeqnos_eq]
          exact hmem
      | some batch =>
          dsimp only [publish] at hmem
          rw [Memtable.liveSeqnos_eq, Memtable.live_insertAt hwf env hbase.le, List.map_append, List.mem_append,
            Memtable.fst_chunkEntries] at hmem
          refine hold seqno (hmem.resolve_right fun hnew => ?_)
          obtain ⟨index, -, rfl⟩ := List.mem_map.mp hnew
          exact absurd hlt (Nat.not_lt.mpr (Nat.le_add_right _ _))

theorem flushLocked_ages [DecidableEq τ] (h : t.Tidy) {rows : Nat} (hok : t.flushLocked env = .ok (rows, t')) :
    t.Ages t' := by
  have hnone : ∀ seqno ∈ t.writer.memtable.freeze.2.liveSeqnos, seqno < t.writer.memtable.nextSeqno →
      seqno ∈ t.writer.memtable.liveSeqnos := by
    intro seqno hmem
    rw [Memtable.liveSeqnos_eq, Memtable.freeze_snd.2] at hmem
    cases hmem
  rcases flushLocked_ok hok with ⟨-, rfl⟩ | ⟨pending, f, -, hpending, hcommit, rfl⟩
  · exact .lists h (.of_segments rfl rfl) (fun _ _ hmem => hmem) le_rfl hnone
  · exact .lists h (TableFile.commit_lists (flushed_succeeds hpending) hcommit) (fun _ _ hmem => hmem) le_rfl hnone

section Count

/-- The live rows of one segment. -/
def liveIn (t : Table M) (entry : SegmentEntry) : List RowId :=
  ((List.range entry.rowCount).filter fun position => position ∉ (t.writer.deletes entry.segmentId).getD ∅).map
    (RowId.segment entry.segmentId)

/-- The live rows, each once. -/
def liveIds (t : Table M) : List RowId :=
  t.writer.file.committed.manifest.segments.flatMap t.liveIn ++ t.writer.memtable.liveSeqnos.map RowId.memtable

/-- How many rows a scan of the writer's state would return. -/
def liveCount (t : Table M) : Nat := (t.writer.snapshot t.schema).liveRows

theorem mem_liveIn {entry : SegmentEntry} {id : RowId} : id ∈ t.liveIn entry ↔ ∃ position < entry.rowCount,
    position ∉ (t.writer.deletes entry.segmentId).getD ∅ ∧ id = .segment entry.segmentId position := by
  simp only [liveIn, List.mem_map, List.mem_filter, List.mem_range, decide_eq_true_iff]
  constructor
  · rintro ⟨position, ⟨hlt, hkept⟩, rfl⟩
    exact ⟨position, hlt, hkept, rfl⟩
  · rintro ⟨position, hlt, hkept, rfl⟩
    exact ⟨position, ⟨hlt, hkept⟩, rfl⟩

theorem Tidy.mem_liveIds (h : t.Tidy) (id : RowId) : id ∈ t.liveIds ↔ t.Live id := by
  rw [liveIds, List.mem_append, List.mem_flatMap]
  cases id with
  | segment id position =>
      constructor
      · rintro (⟨entry, hentry, hmem⟩ | hmem)
        · obtain ⟨other, hlt, hkept, heq⟩ := mem_liveIn.mp hmem
          obtain ⟨rfl, rfl⟩ := RowId.segment.inj heq
          exact ⟨entry, h.numbered.segment_of_mem hentry, hlt, hkept⟩
        · obtain ⟨seqno, -, heq⟩ := List.mem_map.mp hmem
          cases heq
      · rintro ⟨entry, hentry, hlt, hkept⟩
        obtain ⟨hmem, rfl⟩ := Manifest.Numbered.mem_of_segment hentry
        exact .inl ⟨entry, hmem, mem_liveIn.mpr ⟨position, hlt, hkept, rfl⟩⟩
  | memtable seqno =>
      constructor
      · rintro (⟨entry, -, hmem⟩ | hmem)
        · obtain ⟨position, -, -, heq⟩ := mem_liveIn.mp hmem
          cases heq
        · obtain ⟨other, hother, heq⟩ := List.mem_map.mp hmem
          exact RowId.memtable.inj heq ▸ hother
      · exact fun hlive => .inr (List.mem_map_of_mem hlive)

theorem Tidy.nodup_liveSeqnos (h : t.Tidy) : t.writer.memtable.liveSeqnos.Nodup := by
  rw [Memtable.liveSeqnos_eq]
  exact h.memtable.nodup.sublist (List.filter_sublist.map _)

theorem Tidy.nodup_liveIds (h : t.Tidy) : t.liveIds.Nodup := by
  refine List.Nodup.append ?_ ?_ fun id hsegment hmemtable => ?_
  · refine List.nodup_flatMap.mpr ⟨fun entry _ => ?_, ?_⟩
    · exact (List.nodup_range.filter _).map fun a b hab => (RowId.segment.inj hab).2
    · have hids : t.writer.file.committed.manifest.segments.Pairwise fun a b => a.segmentId ≠ b.segmentId :=
        List.pairwise_map.mp h.numbered.nodup
      refine hids.imp fun {a b} hne id ha hb => ?_
      obtain ⟨_, -, -, rfl⟩ := mem_liveIn.mp ha
      obtain ⟨_, -, -, heq⟩ := mem_liveIn.mp hb
      exact hne (RowId.segment.inj heq).1
  · exact h.nodup_liveSeqnos.map fun a b hab => RowId.memtable.inj hab
  · obtain ⟨entry, -, hmem⟩ := List.mem_flatMap.mp hsegment
    obtain ⟨_, -, -, rfl⟩ := mem_liveIn.mp hmem
    obtain ⟨_, -, heq⟩ := List.mem_map.mp hmemtable
    cases heq

/-- Positions left when some of the first `n` are taken out. -/
theorem length_range_filter {n : Nat} {rows : Finset Nat} (h : ∀ position ∈ rows, position < n) :
    rows.card ≤ n ∧ ((List.range n).filter fun position => position ∉ rows).length = n - rows.card := by
  have hset : ((List.range n).filter (· ∈ rows)).toFinset = rows := by
    ext position
    simp only [List.mem_toFinset, List.mem_filter, List.mem_range, decide_eq_true_iff]
    exact ⟨fun hmem => hmem.2, fun hmem => ⟨h position hmem, hmem⟩⟩
  have hcard := List.toFinset_card_of_nodup ((List.nodup_range (n := n)).filter fun position => decide (position ∈ rows))
  rw [hset] at hcard
  have hsplit := List.length_eq_length_filter_add (l := List.range n) fun position => decide (position ∈ rows)
  rw [List.length_range] at hsplit
  simp only [decide_not]
  omega

/-- A snapshot counts the rows of a segment that are not deleted. -/
theorem Tidy.length_liveIn (h : t.Tidy) {entry : SegmentEntry}
    (hentry : entry ∈ t.writer.file.committed.manifest.segments) :
    (t.liveIn entry).length = (t.writer.snapshot t.schema).liveRowsIn entry := by
  rw [liveIn, List.length_map, Snapshot.liveRowsIn, Writer.snapshot]
  dsimp only
  cases hrows : t.writer.deletes entry.segmentId with
  | none => simp
  | some rows =>
      obtain ⟨hcard, hlen⟩ := length_range_filter (h.bounded entry hentry rows hrows)
      rw [Option.getD_some, hlen]
      by_cases hempty : rows = ∅
      · simp [hempty, Option.filter]
      · simp [Option.filter, hempty, Nat.min_eq_left hcard]

theorem Tidy.length_liveIds (h : t.Tidy) : t.liveIds.length = t.liveCount := by
  have hsegments : (t.writer.file.committed.manifest.segments.flatMap t.liveIn).length =
      (t.writer.file.committed.manifest.segments.map (t.writer.snapshot t.schema).liveRowsIn).sum := by
    rw [List.length_flatMap]
    exact congrArg List.sum (List.map_congr_left fun entry hentry => h.length_liveIn hentry)
  have hmemtable : t.writer.memtable.liveSeqnos.length = totalRows t.writer.memtable.batches := by
    rw [← length_rowsOf, Memtable.rowsOf_batches, Memtable.liveSeqnos_eq, List.length_map, List.length_map]
  rw [liveIds, List.length_append, List.length_map, hsegments, hmemtable]
  rfl

/-- A deletion leaves no more rows than there were. -/
theorem Tidy.liveCount_le_of_subset (h : t.Tidy) (h' : t'.Tidy) (hsub : ∀ id, t'.Live id → t.Live id) :
    t'.liveCount ≤ t.liveCount := by
  rw [← h.length_liveIds, ← h'.length_liveIds]
  refine (List.subperm_of_subset h'.nodup_liveIds fun id hid => ?_).length_le
  exact (h.mem_liveIds id).mpr (hsub id ((h'.mem_liveIds id).mp hid))

theorem liveCount_delete (htidy : t.Tidy) {segmentDeletions : List (SegmentId × List Nat)} {memtableSeqnos : List Nat}
    {deleted : Nat} (hok : t.delete env segmentDeletions memtableSeqnos = .ok (deleted, t')) :
    t'.liveCount ≤ t.liveCount := by
  have htidy' := htidy.delete hok
  refine htidy.liveCount_le_of_subset htidy' fun id hlive => (delete_ages htidy hok).dead id ?_ hlive
  have hgiven := htidy'.live_given hlive
  rcases delete_ok hok with ⟨rfl, -⟩ | ⟨planned, frame, wal, -, -, -, rfl⟩
  · exact hgiven
  · rw [applyDeletes_snd] at hgiven
    cases id with
    | segment id position => exact hgiven
    | memtable seqno =>
        dsimp only [Given, publish] at hgiven
        rw [Memtable.delete_snd] at hgiven
        exact hgiven

/-- An update that names live rows, as many as it appends, leaves as many rows as there were. -/
theorem Tidy.liveCount_replaceRows [DecidableEq τ] (h : t.Tidy) {segmentDeletions : List (SegmentId × List Nat)}
    {memtableSeqnos : List Nat} {replacements : List (RecordBatch τ ν)} {rows : Nat} {ids : List RowId}
    (hnodup : (segmentDeletions.map Prod.fst).Nodup) (hids : ids.Nodup)
    (hnamed : ∀ id, id ∈ ids ↔ id.Named segmentDeletions memtableSeqnos) (hlive : ∀ id ∈ ids, t.Live id)
    (hlen : ids.length = totalRows replacements)
    (hok : t.replaceRows env segmentDeletions memtableSeqnos replacements = .ok (rows, t')) :
    t'.liveCount = t.liveCount := by
  have hafter := h.replaceRows hok
  let fresh := (List.range (totalRows replacements)).map fun index => RowId.memtable (t.writer.memtable.nextSeqno + index)
  have hfresh : ∀ id, id ∈ fresh ↔ ∃ index < totalRows replacements,
      id = .memtable (t.writer.memtable.nextSeqno + index) := by
    intro id
    simp only [fresh, List.mem_map, List.mem_range]
    exact exists_congr fun index => and_congr_right fun _ => eq_comm
  have hperm : t'.liveIds.Perm (t.liveIds.filter (· ∉ ids) ++ fresh) := by
    refine (List.perm_ext_iff_of_nodup hafter.nodup_liveIds ?_).mpr fun id => ?_
    · refine (h.nodup_liveIds.filter _).append ?_ fun id hold hnew => ?_
      · refine List.nodup_range.map fun a b hab => ?_
        have := RowId.memtable.inj hab
        omega
      · -- a fresh number has not been given out
        obtain ⟨index, -, rfl⟩ := (hfresh id).mp hnew
        have hgiven := h.live_given ((h.mem_liveIds _).mp (List.mem_of_mem_filter hold))
        exact absurd hgiven (Nat.not_lt.mpr (Nat.le_add_right _ _))
    · rw [hafter.mem_liveIds, replaceRows_live h hnodup hok, List.mem_append, List.mem_filter, h.mem_liveIds, hfresh,
        decide_eq_true_iff, hnamed]
  have hkept : (t.liveIds.filter (· ∉ ids)).length + ids.length = t.liveIds.length := by
    have hpart : (t.liveIds.filter (· ∈ ids)).Perm ids := by
      refine (List.perm_ext_iff_of_nodup (h.nodup_liveIds.filter _) hids).mpr fun id => ?_
      rw [List.mem_filter, decide_eq_true_iff, h.mem_liveIds]
      exact ⟨fun hmem => hmem.2, fun hmem => ⟨hlive id hmem, hmem⟩⟩
    have hsplit := List.length_eq_length_filter_add (l := t.liveIds) fun id => decide (id ∈ ids)
    rw [hpart.length_eq] at hsplit
    simp only [decide_not]
    omega
  rw [← h.length_liveIds, ← hafter.length_liveIds, hperm.length_eq, List.length_append, ← hkept, hlen]
  simp [fresh]

/-- What a run of segment writes adds to the manifest. -/
theorem writeSegments_entries [DecidableEq τ] {current : TableSchema τ} {minActive : Nat} {p p' : Pending M}
    {groups : List (List (RecordBatch τ ν))} (h : groups.foldlM (writeSegment env current minActive) p = .ok p') :
    ∃ more, p'.manifest.segments = p.manifest.segments ++ more ∧
      (more.map SegmentEntry.rowCount).sum = (rowsOf groups.flatten).length := by
  induction groups generalizing p with
  | nil =>
      obtain rfl := Except.ok.inj h
      exact ⟨[], by simp, rfl⟩
  | cons group groups ih =>
      obtain ⟨q, hq, h⟩ := bind_eq_ok.mp h
      obtain ⟨more, hmore, hsum⟩ := ih h
      rw [List.flatten_cons, rowsOf_append, List.length_append, length_rowsOf group]
      rcases writeSegment_entry hq with ⟨hzero, rfl⟩ | ⟨data, metaFrame, hsegments, -⟩
      · rw [hzero, Nat.zero_add]
        exact ⟨more, hmore, hsum⟩
      · refine ⟨_ :: more, by rw [hmore, hsegments, List.append_assoc]; rfl, ?_⟩
        rw [List.map_cons, List.sum_cons, hsum]

/-- A flush writes out the rows of the memtable, and adds none. -/
theorem liveCount_flushLocked [DecidableEq τ] {rows : Nat} (hok : t.flushLocked env = .ok (rows, t')) :
    t'.liveCount ≤ t.liveCount := by
  rcases flushLocked_ok hok with ⟨-, rfl⟩ | ⟨pending, f, -, hpending, hcommit, rfl⟩
  · exact Nat.add_le_add_left (Nat.zero_le _) _
  · obtain ⟨groups, hgroups, hwrite⟩ := bind_eq_ok.mp hpending
    obtain ⟨written, hwritten, hbitmaps⟩ := bind_eq_ok.mp hwrite
    obtain ⟨more, hmore, hsum⟩ := writeSegments_entries hwritten
    have hfew : (rowsOf groups.flatten).length ≤ (rowsOf t.writer.memtable.batches).length := length_rowGroups_le hgroups
    obtain ⟨-, -, -, -, hsegments, -⟩ := TableFile.commit_stamps hcommit
    let s := t.writer.snapshot t.schema
    have hbodies : ∀ entries : List SegmentEntry, (entries.map s.liveRowsIn) =
        (entries.map SegmentEntry.body).map s.liveRowsIn := by
      intro entries
      rw [List.map_map]
      rfl
    have hcount : (f.committed.manifest.segments.map s.liveRowsIn).sum =
        (t.writer.file.committed.manifest.segments.map s.liveRowsIn).sum + (more.map s.liveRowsIn).sum := by
      rw [hsegments, hbodies, (writeBitmaps_body hbitmaps).1, ← hbodies, hmore, List.map_append, List.sum_append]
      rfl
    have hnew : (more.map s.liveRowsIn).sum ≤ (more.map SegmentEntry.rowCount).sum :=
      List.sum_le_sum fun entry _ => Nat.sub_le _ _
    have hlast : (t.writer.memtable.freeze.2).batches = [] := rfl
    change (f.committed.manifest.segments.map s.liveRowsIn).sum + totalRows t.writer.memtable.freeze.2.batches ≤
      (t.writer.file.committed.manifest.segments.map s.liveRowsIn).sum + totalRows t.writer.memtable.batches
    rw [hcount, hlast, ← length_rowsOf t.writer.memtable.batches]
    change _ + 0 ≤ _
    omega

end Count

end Table

end LocalTables
