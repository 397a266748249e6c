import LocalTables.Table.Columns
import LocalTables.Table.Drops
import LocalTables.Table.Rebuilt

/-! Addresses of rows. A row is named by its segment and position there, or by its sequence number; a name that has been
given out is never given to another row. -/

namespace LocalTables

variable {τ ν : Type} {M : Media τ ν}

theorem mem_numbered {seqno : Nat} {rows : List (Row ν)} {entry : RowId × Row ν} (h : entry ∈ numbered seqno rows) :
    ∃ n, seqno ≤ n ∧ entry.1 = .memtable n := by
  obtain ⟨⟨n, row⟩, hmem, rfl⟩ := List.mem_map.mp (Multiset.mem_coe.mp h)
  obtain ⟨⟨row', position⟩, -, heq⟩ := List.mem_map.mp hmem
  obtain ⟨rfl, -⟩ := Prod.mk.inj heq
  exact ⟨_, Nat.le_add_right _ _, rfl⟩

namespace Table

variable {env : Env τ ν} {t t' t₁ : Table M} {old fresh : List (WalRecord τ ν)}

/-- Addresses that were given out still are, and what is at one of them was there. -/
structure Keeps (env : Env τ ν) (t t' : Table M) : Prop where
  given : ∀ id : RowId, t.Given id → t'.Given id
  held : ∀ entry ∈ t'.held env, t.Given entry.1 → entry ∈ t.held env

namespace Keeps

theorem refl (env : Env τ ν) (t : Table M) : t.Keeps env t := ⟨fun _ h => h, fun _ h _ => h⟩

theorem trans (h : t.Keeps env t₁) (h' : t₁.Keeps env t') : t.Keeps env t' where
  given id hid := h'.given id (h.given id hid)
  held entry hentry hid := h.held entry (h'.held entry hentry (h.given _ hid)) hid

theorem given_of (hnext : t.writer.file.committed.manifest.nextSegmentId ≤ t'.writer.file.committed.manifest.nextSegmentId)
    (hseqno : t.writer.memtable.nextSeqno ≤ t'.writer.memtable.nextSeqno) (id : RowId) (hid : t.Given id) : t'.Given id := by
  cases id with
  | segment id position => exact Nat.lt_of_lt_of_le hid hnext
  | memtable seqno => exact Nat.lt_of_lt_of_le hid hseqno

theorem of_held (hnext : t.writer.file.committed.manifest.nextSegmentId ≤ t'.writer.file.committed.manifest.nextSegmentId)
    (hseqno : t.writer.memtable.nextSeqno ≤ t'.writer.memtable.nextSeqno) (hheld : t'.held env = t.held env) :
    t.Keeps env t' :=
  ⟨given_of hnext hseqno, fun _ hentry _ => hheld ▸ hentry⟩

theorem of_updates (hnext : t.writer.file.committed.manifest.nextSegmentId ≤ t'.writer.file.committed.manifest.nextSegmentId)
    (hseqno : t.writer.memtable.nextSeqno ≤ t'.writer.memtable.nextSeqno) {us : List (Bag.Update RowId (Row ν))}
    (hheld : t'.held env = Bag.applyAll us (t.held env)) (hadded : ∀ u ∈ us, ∀ entry ∈ u.added, ¬t.Given entry.1) :
    t.Keeps env t' := by
  refine ⟨given_of hnext hseqno, fun entry hentry hid => ?_⟩
  rw [hheld] at hentry
  exact Bag.mem_applyAll hadded hentry hid

theorem resumed (h : t.Resumes env t') : t.Keeps env t' :=
  .of_held (by rw [h.manifest]) h.nextSeqno.ge h.held

end Keeps

/-- The rows an insert or an update adds are numbered from the next number on. -/
theorem numbered_not_given {n : Nat} (hn : t.writer.memtable.nextSeqno ≤ n) {rows : List (Row ν)} {entry : RowId × Row ν}
    (h : entry ∈ numbered n rows) : ¬t.Given entry.1 := by
  obtain ⟨seqno, hseqno, hid⟩ := mem_numbered h
  rw [hid]
  exact Nat.not_lt.mpr (hn.trans hseqno)

theorem planInserts_seqno {lsn seqno : Nat} {batches : List (RecordBatch τ ν)} {planned : Nat × RecordBatch τ ν}
    (h : planned ∈ (planInserts lsn seqno batches).2) : seqno ≤ planned.1 := by
  induction batches generalizing lsn seqno with
  | nil => cases h
  | cons batch batches ih =>
      unfold planInserts at h
      split at h
      · exact ih h
      · rcases List.mem_cons.mp h with rfl | hrest
        · exact le_rfl
        · exact (Nat.le_add_right _ _).trans (ih hrest)

theorem insertUpdates_not_given {batches : List (RecordBatch τ ν)} :
    ∀ u ∈ insertUpdates t.writer.memtable.nextSeqno batches, ∀ entry ∈ u.added, ¬t.Given entry.1 := by
  intro u hu entry hentry
  obtain ⟨part, hpart, rfl⟩ := List.mem_map.mp hu
  obtain ⟨planned, hplanned, rfl⟩ := List.mem_map.mp hpart
  exact numbered_not_given (planInserts_seqno hplanned) hentry

/-- Every row is at an address that has been given out. -/
theorem held_given (h : t.Tidy) : ∀ entry ∈ t.held env, t.Given entry.1 := by
  intro entry hentry
  rcases Multiset.mem_add.mp hentry with hsegment | hmemory
  · obtain ⟨listed, hlisted, hmem⟩ := List.mem_flatMap.mp (Multiset.mem_coe.mp hsegment)
    obtain ⟨data, position, -, -, -, hid⟩ := SegmentEntry.mem_heldIn hmem
    rw [hid]
    exact h.numbered.below listed hlisted
  · obtain ⟨row, hrow, rfl⟩ := List.mem_map.mp (Multiset.mem_coe.mp hmemory)
    exact h.memtable.below row (List.mem_of_mem_filter hrow)

theorem map_fst_heldIn {entry : SegmentEntry} {data : SegmentData ν}
    (hdata : segmentReader t.writer.file.io.file entry t.schema.layout = .ok data)
    (hrows : data.rows.length = entry.rowCount) : (t.heldIn env entry).map Prod.fst = t.liveIn entry := by
  have hpositions : data.rows.zipIdx.map Prod.snd = List.range entry.rowCount := by
    rw [List.zipIdx_map_snd, hrows, List.range_eq_range']
  rw [heldIn, SegmentEntry.heldIn_eq hdata, SegmentData.live, liveIn, ← hpositions, List.filter_map, List.map_map,
    List.map_map]
  rfl

/-- The addresses at which there is a row are the names of the live rows, each once. -/
theorem map_fst_held (h : t.Tidy) (hreads : ∀ entry ∈ t.writer.file.committed.manifest.segments, ∃ data,
    segmentReader t.writer.file.io.file entry t.schema.layout = .ok data ∧ data.rows.length = entry.rowCount) :
    (t.held env).map Prod.fst = t.liveIds ∧ ((t.held env).map Prod.fst).Nodup := by
  have hsegments : t.writer.file.committed.manifest.segments.flatMap (fun entry => (t.heldIn env entry).map Prod.fst) =
      t.writer.file.committed.manifest.segments.flatMap t.liveIn := by
    apply List.flatMap_congr
    intro entry hentry
    obtain ⟨data, hdata, hrows⟩ := hreads entry hentry
    exact map_fst_heldIn hdata hrows
  have hids : (t.held env).map Prod.fst = t.liveIds := by
    rw [held, Multiset.map_add, Multiset.map_coe, Multiset.map_coe, List.map_flatMap, hsegments, liveIds,
      ← Multiset.coe_add, Memtable.liveSeqnos_eq, Memtable.held, List.map_map, List.map_map]
    rfl
  refine ⟨hids, ?_⟩
  rw [hids]
  exact Multiset.coe_nodup.mpr h.nodup_liveIds

section Steps

variable [DecidableEq τ]

/-- What a step finds and leaves of a segment holds the rows it held. -/
theorem mem_held_listed (hhoused : t.Housed) (hstep : Locked env t t') (hschema : t'.schema = t.schema)
    {listed : SegmentEntry} (hlisted : listed ∈ t'.writer.file.committed.manifest.segments)
    (hid : listed.segmentId < t.writer.file.committed.manifest.nextSegmentId)
    (hdeletes : (t'.writer.deletes listed.segmentId).getD ∅ = (t.writer.deletes listed.segmentId).getD ∅)
    {entry : RowId × Row ν} (hentry : entry ∈ t'.heldIn env listed) : entry ∈ t.held env := by
  obtain ⟨before, hbefore, hbody⟩ := (hstep.succeeds.listed listed hlisted).resolve_right (Nat.not_le.mpr hid)
  obtain ⟨hsame, hdata, hmeta, -⟩ := SegmentEntry.eq_of_body hbody
  have hat : before.metaAt = listed.metaAt := by rw [SegmentEntry.metaAt, SegmentEntry.metaAt, hdata, hmeta]
  have hmem : before.data ∈ t.current.manifest.refs := by
    rw [hhoused.synced.manifest]
    exact Manifest.mem_refs.mpr ⟨before, hbefore, .inl rfl⟩
  have hread := (Stirs.locked hstep).reads hhoused (.inl rfl) hmem (.segment before.metaAt)
  have hheld : t'.heldIn env listed = t.heldIn env before := by
    unfold heldIn
    rw [hschema, hdeletes, hsame]
    exact SegmentEntry.heldIn_congr hsame.symm hdata.symm hat.symm hread _
  rw [hheld] at hentry
  exact Multiset.mem_add.mpr (.inl (Multiset.mem_coe.mpr (List.mem_flatMap.mpr ⟨before, hbefore, hentry⟩)))

theorem Keeps.appends {more : List (WalRecord τ ν)} (h : t.Appends env old fresh more t')
    {us : List (Bag.Update RowId (Row ν))} (hheld : t'.held env = Bag.applyAll us (t.held env))
    (hadded : ∀ u ∈ us, ∀ entry ∈ u.added, ¬t.Given entry.1) : t.Keeps env t' :=
  .of_updates (by rw [h.file]) h.nextSeqno hheld hadded

theorem Keeps.flushLocked (h : t.Whole env) {rows : Nat} (hok : t.flushLocked env = .ok (rows, t')) : t.Keeps env t' := by
  have hstep : Locked env t t' := .flush hok
  have hwriter : t'.writer.deletes = t.writer.deletes ∧ t'.writer.memtable = t.writer.memtable.freeze.2 := by
    rcases flushLocked_ok hok with ⟨-, rfl⟩ | ⟨pending, f, -, -, -, rfl⟩
    · exact ⟨rfl, rfl⟩
    · exact ⟨rfl, rfl⟩
  obtain ⟨hdeletes, hmemtable⟩ := hwriter
  refine ⟨Keeps.given_of hstep.succeeds.next (by rw [hmemtable]; exact le_rfl), ?_⟩
  intro entry hentry hid
  rcases Multiset.mem_add.mp hentry with hsegment | hmemory
  · obtain ⟨listed, hlisted, hmem⟩ := List.mem_flatMap.mp (Multiset.mem_coe.mp hsegment)
    obtain ⟨data, position, -, -, -, haddress⟩ := SegmentEntry.mem_heldIn hmem
    rw [haddress] at hid
    exact mem_held_listed h.housed hstep (flushLocked_schema hok) hlisted hid (by rw [hdeletes]) hmem
  · have hnone : t.writer.memtable.freeze.2.live = [] := Memtable.freeze_snd.2
    rw [hmemtable, Memtable.held, hnone] at hmemory
    cases hmemory

theorem Keeps.compactLocked (h : t.Whole env) (hsaved : t.Saved) {ids : List SegmentId} {rewrite : Rewrite τ ν} {rows : Nat}
    (hids : ids.Nodup) (hread : t.compactRead env ids = .ok rewrite)
    (hok : t.compactLocked env rewrite = .ok (rows, t')) : t.Keeps env t' := by
  rcases compactLocked_relists h hsaved hids hread hok with rfl | hrelists
  · exact .refl env _
  · have hstep : Locked env t t' := .compact ids hids hread hok
    refine ⟨Keeps.given_of hrelists.next (by rw [hrelists.memtable]), ?_⟩
    intro entry hentry hid
    rcases Multiset.mem_add.mp hentry with hsegment | hmemory
    · obtain ⟨listed, hlisted, hmem⟩ := List.mem_flatMap.mp (Multiset.mem_coe.mp hsegment)
      obtain ⟨data, position, -, -, -, haddress⟩ := SegmentEntry.mem_heldIn hmem
      rw [haddress] at hid
      exact mem_held_listed h.housed hstep hrelists.schema hlisted hid (hrelists.deletes listed hlisted hid) hmem
    · rw [hrelists.memtable] at hmemory
      exact Multiset.mem_add.mpr (.inr hmemory)

theorem Keeps.deleteSegments (h : t.Whole env) {segmentIds : List SegmentId} (hsafe : t.DropsSafely segmentIds)
    {deleted : Nat} (hok : t.deleteSegments segmentIds = .ok (deleted, t')) : t.Keeps env t' := by
  have hstep : Locked env t t' := .deleteSegments segmentIds hok
  have hmemtable := (deleteSegments_relists h hsafe hok).memtable
  have hheld : t'.held env = Bag.applyAll [dropUpdate segmentIds] (t.held env) := held_deleteSegments h hsafe hok
  apply Keeps.of_updates hstep.succeeds.next _ hheld
  · simp [dropUpdate]
  · rw [hmemtable]

end Steps

end Table

end LocalTables
