import LocalTables.Table.Isolation
import LocalTables.Table.Read

/-! Batches that outlive their snapshot. Through a mapped file a plain column is the file's own bytes, so a
batch shows whatever those bytes hold when it is looked at. The quarantine of freed extents follows the
snapshots that are held, not the batches: a batch is safe for as long as the allocator may not hand out its
segment's bytes. -/

namespace LocalTables

variable {τ ν : Type} {M : Media τ ν}

/-- A batch cut from a segment without a copy. -/
structure View (τ : Type) where
  entry : SegmentEntry
  fields : List (Field τ)
  start : Nat
  len : Nat

/-- What the batch shows through the file as it is now. -/
def View.batch (env : Env τ ν) (file : M.File) (v : View τ) : Except Error (RecordBatch τ ν) := do
  match ← M.read file v.entry.data (.segment v.entry.metaAt) with
  | .segment data => return readRows env v.fields data v.start v.len
  | _ => throw wrongTag

section Read

variable {env : Env τ ν} {file : M.File}

/-- Part of a decoded range is a decoded range. -/
theorem slice_readRows (fields : List (Field τ)) (data : SegmentData ν) (start len skip count : Nat) :
    (readRows env fields data start len).slice skip count =
      readRows env fields data (start + skip) (min count (len - skip)) := by
  simp only [readRows, RecordBatch.slice, RecordBatch.mk.injEq, true_and]
  rw [← List.map_drop, ← List.map_take, List.drop_take, List.take_take, List.drop_drop]

theorem mem_sliceBatches {fields : List (Field τ)} {data : SegmentData ν} {start len rows : Nat}
    {batch : RecordBatch τ ν} (h : batch ∈ sliceBatches (readRows env fields data start len) rows) :
    ∃ start' len', batch = readRows env fields data start' len' := by
  unfold sliceBatches at h
  split at h
  · cases h
  · split at h
    · exact ⟨start, len, List.mem_singleton.mp h⟩
    · obtain ⟨index, -, rfl⟩ := List.mem_map.mp h
      exact ⟨_, _, slice_readRows fields data start len (index * rows) rows⟩

/-- Without deletions every batch a segment is read as is a view of it. -/
theorem readSegment_views {s : Snapshot τ ν} {entry : SegmentEntry} {batches : List (RecordBatch τ ν)}
    (hkeep : s.deletes entry.segmentId = none) (h : readSegment env file s entry = .ok batches)
    {batch : RecordBatch τ ν} (hbatch : batch ∈ batches) :
    ∃ v : View τ, v.entry = entry ∧ v.batch env file = .ok batch := by
  obtain ⟨data, hdata, h⟩ := bind_eq_ok.mp h
  obtain rfl := Except.ok.inj h
  rw [List.mem_flatMap] at hbatch
  obtain ⟨⟨start, len⟩, -, hbatch⟩ := hbatch
  simp only [hkeep] at hbatch
  split at hbatch
  · cases hbatch
  · obtain ⟨start', len', rfl⟩ := mem_sliceBatches hbatch
    refine ⟨⟨entry, s.schema.fields, start', len'⟩, rfl, ?_⟩
    rw [View.batch, (segmentReader_ok hdata).1]
    rfl

end Read

namespace Table

variable {env : Env τ ν} {t t' : Table M} {e : Extent}

/-- Nothing the allocator may hand out shares a byte with the extent. -/
def NoReuse (t : Table M) (e : Extent) : Prop :=
  ∀ free ∈ t.writer.file.committed.manifest.freeExtents, free.freedTxn < t.minActiveTxn → ¬free.extent.Shares e

instance (t : Table M) (e : Extent) : Decidable (t.NoReuse e) :=
  inferInstanceAs (Decidable (∀ free ∈ t.writer.file.committed.manifest.freeExtents,
    free.freedTxn < t.minActiveTxn → ¬free.extent.Shares e))

/-- Commits count from one. -/
structure Counted (t : Table M) : Prop where
  txn : 0 < t.writer.file.committed.metaPage.txnId
  pins : ∀ s ∈ t.pins, 0 < s.txnId

theorem Counted.min_pos (h : t.Counted) (hsynced : t.Synced) : 0 < t.minActiveTxn := by
  have hfold : ∀ (pins : List (Snapshot τ ν)) (first : Nat), 0 < first → (∀ s ∈ pins, 0 < s.txnId) →
      0 < pins.foldl (fun oldest s => min oldest s.txnId) first := by
    intro pins
    induction pins with
    | nil => exact fun first hfirst _ => hfirst
    | cons pin pins ih =>
        intro first hfirst hpins
        exact ih _ (lt_min hfirst (hpins pin (by simp))) fun s hs => hpins s (by simp [hs])
  exact hfold t.pins _ (hsynced.txn ▸ h.txn) h.pins

theorem Counted.advances (h : t.Counted) (hisolated : t.Isolated) (hstep : t.Advances t') : t'.Counted := by
  refine ⟨?_, hstep.pins ▸ h.pins⟩
  cases hstep.transition with
  | quiet hfile => exact hfile ▸ h.txn
  | commit float p f hprepared hnumbered hcommit hfile =>
      obtain ⟨-, -, hnext⟩ := hprepared.commit_old hisolated.sound hisolated.min_le hcommit
      rw [hfile]
      dsimp only
      omega

theorem Counted.locked [DecidableEq τ] (h : t.Counted) (hisolated : t.Isolated) (hstep : Locked env t t') :
    t'.Counted := by
  rcases hstep.advances hisolated.toKept with hadvances | rfl | ⟨index, rfl⟩
  · exact h.advances hisolated hadvances
  · refine ⟨h.txn, fun s hs => ?_⟩
    rcases List.mem_cons.mp hs with rfl | hs
    · exact hisolated.synced.txn ▸ h.txn
    · exact h.pins s hs
  · exact ⟨h.txn, fun s hs => h.pins s (List.mem_of_mem_eraseIdx hs)⟩

theorem Reachable.counted [DecidableEq τ] (hrun : Reachable env t) : t.Counted := by
  induction hrun with
  | create schema fingerprint newTableUuid h =>
      obtain ⟨file, seed, current, -, hfresh, -, rfl⟩ := create_ok h
      have htxn : 0 < file.committed.metaPage.txnId := hfresh.metaPage.1 ▸ Nat.one_pos
      exact ⟨htxn, by simp [freshTable]⟩
  | step hrun hstep ih => exact ih.locked hrun.isolated hstep

/-- What a batch views: an extent of the data region, inside the file. -/
structure Viewed (t : Table M) (e : Extent) : Prop where
  low : dataStart ≤ e.offset
  pos : 0 < e.len
  inFile : e.stop ≤ t.writer.file.committed.manifest.fileLen

theorem Viewed.guarded (h : t.Viewed e) (hisolated : t.Isolated) (hcounted : t.Counted) (hreuse : t.NoReuse e) :
    Protects t.writer.file.committed.manifest (t.minActiveTxn - 1) e ∧
      Safe t.minActiveTxn t.writer.file.beginManifest e := by
  have hmin := hisolated.min_le
  have hone := hcounted.min_pos hisolated.synced
  have hprotects : Protects t.writer.file.committed.manifest (t.minActiveTxn - 1) e := by
    refine ⟨h.pos, h.inFile, fun free hfree hfreed => ?_⟩
    rcases Nat.eq_zero_or_pos free.extent.len with hzero | hpos
    · exact .inl hzero
    · exact .inr (Extent.apart_of_not_shares (hreuse free hfree (by omega)) hpos h.pos)
  refine ⟨hprotects, h.low, _, ?_, ?_, hprotects.congr rfl rfl⟩
  · omega
  · change t.minActiveTxn - 1 < t.writer.file.committed.metaPage.txnId + 1
    omega

/-- One step, and the bytes are where they were. -/
theorem Viewed.locked [DecidableEq τ] (h : t.Viewed e) (hisolated : t.Isolated) (hcounted : t.Counted)
    (hreuse : t.NoReuse e) (hstep : Locked env t t') :
    t'.Viewed e ∧ ∀ k, M.read t'.writer.file.io.file e k = M.read t.writer.file.io.file e k := by
  rcases hstep.advances hisolated.toKept with hadvances | rfl | ⟨index, rfl⟩
  · obtain ⟨hprotects, hsafe⟩ := h.guarded hisolated hcounted hreuse
    refine ⟨⟨h.low, h.pos, ?_⟩, fun k => ?_⟩
    · cases hadvances.transition with
      | quiet hfile => exact hfile ▸ h.inFile
      | commit float p f hprepared hnumbered hcommit hfile =>
          have hmin := hisolated.min_le
          have hnew := hprepared.commit_protects hcommit (by omega) hprotects
          rw [hfile]
          exact hnew.inFile
    · obtain ⟨ops, hissued, hspares⟩ := hadvances.issued
      rw [hissued.2]
      exact (Media.applyAll_spared (hspares e (.inr hsafe) (TableFile.page_apart_of_dataStart _ h.low))
        (hisolated.sound.settled.ledger.guarded_inFile (.inr hsafe))).2 k
  · exact ⟨⟨h.low, h.pos, h.inFile⟩, fun _ => rfl⟩
  · exact ⟨⟨h.low, h.pos, h.inFile⟩, fun _ => rfl⟩

theorem Isolated.viewed (h : t.Isolated) {s : Snapshot τ ν} (hs : s = t.current ∨ s ∈ t.pins)
    (he : e ∈ s.manifest.refs) : t.Viewed e := by
  have hprotects : ∀ {txn : Nat}, dataStart ≤ e.offset ∧ Protects t.writer.file.committed.manifest txn e → t.Viewed e :=
    fun ⟨hlow, hprotects⟩ => ⟨hlow, hprotects.pos, hprotects.inFile⟩
  rcases hs with rfl | hs
  · rw [h.synced.manifest] at he
    exact hprotects (h.refs he)
  · exact hprotects ((h.pins s hs).2 e he)

/-- While the snapshot is held its bytes are not handed out. -/
theorem Isolated.noReuse (h : t.Isolated) {s : Snapshot τ ν} (hs : s = t.current ∨ s ∈ t.pins)
    (he : e ∈ s.manifest.refs) : t.NoReuse e := by
  intro free hfree hfreed hshares
  have hapart : ∀ {txn : Nat}, free.freedTxn ≤ txn → Protects t.writer.file.committed.manifest txn e → False := by
    intro txn htxn hprotects
    have := hprotects.apart free hfree htxn
    rw [Extent.shares_iff] at hshares
    have hstop : free.extent.stop = free.extent.offset + free.extent.len := rfl
    simp only [Interval.Apart] at this
    omega
  rcases hs with rfl | hs
  · rw [h.synced.manifest] at he
    exact hapart (Nat.le_of_lt (hfreed.trans_le h.min_le)) (h.refs he).2
  · exact hapart (Nat.le_of_lt (hfreed.trans_le (minActiveTxn_le_pin hs))) ((h.pins s hs).2 e he).2

/-- A batch read from a segment shows the same rows for as long as the segment's bytes may not be handed
out: in every run whose steps start from states where no reusable free extent shares a byte with them.
While the snapshot the batch was read through is held, they never are. -/
theorem held_batch_unchanged [DecidableEq τ] (hrun : Reachable env t) {s : Snapshot τ ν}
    (hs : s = t.current ∨ s ∈ t.pins) {entry : SegmentEntry} (hentry : entry ∈ s.manifest.segments) :
    (∀ t', Relation.ReflTransGen (fun t t' => Locked env t t' ∧ t.NoReuse entry.data) t t' →
      (∀ v : View τ, v.entry = entry → v.batch env t'.writer.file.io.file = v.batch env t.writer.file.io.file) ∧
      readSegment env t'.writer.file.io.file s entry = readSegment env t.writer.file.io.file s entry) ∧
    (∀ batches, s.deletes entry.segmentId = none → readSegment env t.writer.file.io.file s entry = .ok batches →
      ∀ batch ∈ batches, ∃ v : View τ, v.entry = entry ∧ v.batch env t.writer.file.io.file = .ok batch) ∧
    ∀ t' : Table M, Reachable env t' → s = t'.current ∨ s ∈ t'.pins → t'.NoReuse entry.data := by
  have hdata : entry.data ∈ s.manifest.refs := Manifest.mem_refs.mpr ⟨entry, hentry, .inl rfl⟩
  refine ⟨fun t' hsteps => ?_, fun batches hkeep hread batch => readSegment_views hkeep hread,
    fun t' hreach hheld => hreach.isolated.noReuse hheld hdata⟩
  have hkept : Reachable env t' ∧ t'.Viewed entry.data ∧
      ∀ k, M.read t'.writer.file.io.file entry.data k = M.read t.writer.file.io.file entry.data k := by
    induction hsteps with
    | refl => exact ⟨hrun, hrun.isolated.viewed hs hdata, fun _ => rfl⟩
    | tail _ hstep ih =>
        obtain ⟨hreach, hviewed, hread⟩ := ih
        obtain ⟨hviewed', hread'⟩ := hviewed.locked hreach.isolated hreach.counted hstep.2 hstep.1
        exact ⟨hreach.step hstep.1, hviewed', fun k => (hread' k).trans (hread k)⟩
  refine ⟨fun v hv => ?_, ?_⟩
  · rw [View.batch, View.batch, hv, hkept.2.2]
  · rw [readSegment, readSegment, readSegmentAs, readSegmentAs, segmentReader, segmentReader, hkept.2.2]

end Table

section Reused

def reuseEnv : Env Unit Nat := plainEnv plainOptions
  [.insert 1 0 ⟨[()], [[7], [8]]⟩, .insert 2 2 ⟨[()], [[1], [2]]⟩, .insert 3 4 ⟨[()], [[3], [4]]⟩]

/-- A flushed segment, and the table once it has been dropped and two more rows have been flushed. -/
def reuseRun : Except Error (PlainTable × PlainTable × PlainTable × PlainTable) := do
  let t ← Table.create reuseEnv (Journal plainSizes) plainSchema (fun _ => 0) (fun _ => []) none
  let (_, t) ← t.insertLocked reuseEnv [⟨plainSchema.fields, [[7], [8]]⟩]
  let (_, t) ← t.flushLocked reuseEnv
  let (_, dropped) ← t.deleteSegments [0]
  let (_, inserted) ← dropped.insertLocked reuseEnv [⟨plainSchema.fields, [[1], [2]]⟩]
  let (_, flushed) ← inserted.flushLocked reuseEnv
  return (t, dropped, inserted, flushed)

/-- Two rows more. -/
def reuseAgain (t : PlainTable) : Except Error (PlainTable × PlainTable) := do
  let (_, inserted) ← t.insertLocked reuseEnv [⟨plainSchema.fields, [[3], [4]]⟩]
  let (_, flushed) ← inserted.flushLocked reuseEnv
  return (inserted, flushed)

/-- The two rows of the first segment, as a batch. -/
def reuseView : View Unit := ⟨⟨0, ⟨20480, 48⟩, ⟨20480, 32⟩, 2, 0, none⟩, plainSchema.fields, 0, 2⟩

theorem reuseRun_steps {t dropped inserted flushed : PlainTable} (h : reuseRun = .ok (t, dropped, inserted, flushed)) :
    Table.Reachable reuseEnv t ∧ Table.Locked reuseEnv t dropped ∧ Table.Locked reuseEnv dropped inserted ∧
      Table.Locked reuseEnv inserted flushed := by
  obtain ⟨t₀, hcreate, h⟩ := bind_eq_ok.mp h
  obtain ⟨⟨_, t₁⟩, hinsert, h⟩ := bind_eq_ok.mp h
  obtain ⟨⟨_, t₂⟩, hflush, h⟩ := bind_eq_ok.mp h
  obtain ⟨⟨_, t₃⟩, hdrop, h⟩ := bind_eq_ok.mp h
  obtain ⟨⟨_, t₄⟩, hmore, h⟩ := bind_eq_ok.mp h
  obtain ⟨⟨_, t₅⟩, hagain, h⟩ := bind_eq_ok.mp h
  simp only [pure, Except.pure, Except.ok.injEq, Prod.mk.injEq] at h
  obtain ⟨rfl, rfl, rfl, rfl⟩ := h
  exact ⟨.step (.step (.create _ _ _ hcreate) (.insert _ hinsert)) (.flush hflush), .deleteSegments _ hdrop,
    .insert _ hmore, .flush hagain⟩

/-- The batch of a dropped segment after one more flush: its bytes are still in quarantine. -/
theorem dropped_batch_unchanged : ∃ t t' : PlainTable, Table.Reachable reuseEnv t ∧
    reuseView.entry ∈ t.current.manifest.segments ∧ t'.current.manifest.segment 0 = none ∧
    reuseView.batch reuseEnv t'.writer.file.io.file = reuseView.batch reuseEnv t.writer.file.io.file := by
  have hcheck : (match reuseRun with
      | .ok (t, dropped, inserted, flushed) => decide (reuseView.entry ∈ t.current.manifest.segments ∧
          t.NoReuse reuseView.entry.data ∧ dropped.NoReuse reuseView.entry.data ∧
          inserted.NoReuse reuseView.entry.data ∧ flushed.current.manifest.segment 0 = none)
      | .error _ => false) = true := by decide +kernel
  cases hrun : reuseRun with
  | error e => rw [hrun] at hcheck; cases hcheck
  | ok result =>
      obtain ⟨t, dropped, inserted, flushed⟩ := result
      rw [hrun] at hcheck
      obtain ⟨hentry, hfirst, hsecond, hthird, hgone⟩ := of_decide_eq_true hcheck
      obtain ⟨hreach, hdrop, hinsert, hflush⟩ := reuseRun_steps hrun
      refine ⟨t, flushed, hreach, hentry, hgone, ?_⟩
      have hsteps : Relation.ReflTransGen (fun t t' => Table.Locked reuseEnv t t' ∧ t.NoReuse reuseView.entry.data)
          t flushed :=
        .tail (.tail (.single ⟨hdrop, hfirst⟩) ⟨hinsert, hsecond⟩) ⟨hflush, hthird⟩
      exact ((Table.held_batch_unchanged hreach (.inl rfl) hentry).1 flushed hsteps).1 reuseView rfl

/-- One flush later the dropped segment's extent is handed out, and the batch shows other rows. -/
theorem reused_extent_changes_batch : ∃ t t' : PlainTable, Table.Reachable reuseEnv t ∧
    reuseView.entry ∈ t.current.manifest.segments ∧ Relation.ReflTransGen (Table.Locked reuseEnv) t t' ∧
    reuseView.batch reuseEnv t.writer.file.io.file = .ok ⟨plainSchema.fields, [[7], [8]]⟩ ∧
    reuseView.batch reuseEnv t'.writer.file.io.file = .ok ⟨plainSchema.fields, [[3], [4]]⟩ := by
  have hcheck : (match reuseRun with
      | .ok (t, _, _, flushed) => match reuseAgain flushed with
        | .ok (_, t') => decide (reuseView.entry ∈ t.current.manifest.segments ∧
            (reuseView.batch reuseEnv t.writer.file.io.file).toOption = some ⟨plainSchema.fields, [[7], [8]]⟩ ∧
            (reuseView.batch reuseEnv t'.writer.file.io.file).toOption = some ⟨plainSchema.fields, [[3], [4]]⟩)
        | .error _ => false
      | .error _ => false) = true := by decide +kernel
  have hshown : ∀ {shown : Except Error (RecordBatch Unit Nat)} {batch : RecordBatch Unit Nat},
      shown.toOption = some batch → shown = .ok batch := by
    intro shown batch h
    cases shown with
    | error e => cases h
    | ok found => exact congrArg Except.ok (Option.some.inj h)
  cases hrun : reuseRun with
  | error e => rw [hrun] at hcheck; cases hcheck
  | ok result =>
      obtain ⟨t, dropped, inserted, flushed⟩ := result
      rw [hrun] at hcheck
      dsimp only at hcheck
      cases hagain : reuseAgain flushed with
      | error e => rw [hagain] at hcheck; cases hcheck
      | ok result =>
          obtain ⟨again, t'⟩ := result
          rw [hagain] at hcheck
          obtain ⟨hentry, hbefore, hafter⟩ := of_decide_eq_true hcheck
          obtain ⟨hreach, hdrop, hinsert, hflush⟩ := reuseRun_steps hrun
          obtain ⟨⟨_, t₁⟩, hmore, hagain⟩ := bind_eq_ok.mp hagain
          obtain ⟨⟨_, t₂⟩, hlast, hagain⟩ := bind_eq_ok.mp hagain
          obtain ⟨rfl, rfl⟩ := Prod.mk.inj (Except.ok.inj hagain)
          exact ⟨t, t₂, hreach, hentry,
            .tail (.tail (.tail (.tail (.single hdrop) hinsert) hflush) (.insert _ hmore)) (.flush hlast),
            hshown hbefore, hshown hafter⟩

end Reused

end LocalTables
