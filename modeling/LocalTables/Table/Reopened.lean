import LocalTables.Table.Replayed

/-! Opening a table after a crash. `Durable` is what every operation keeps: the file holds the last commit, the logs hold
the records, and replaying those that no flush has folded in mirrors the writer. Whatever keeps the commit and the records
then opens to a table that holds the same rows at the same addresses. -/

namespace LocalTables

variable {τ ν : Type} {M : Media τ ν}

/-- Both logs belong to the table. -/
def WalPair.Owned (p : WalPair) (tableUuid : List UInt8) : Prop :=
  p.a.header.tableUuid = tableUuid ∧ p.b.header.tableUuid = tableUuid

/-- Log files a crash left: the records of the one that was retired, and those of the other up to a record cut short. -/
structure CrashedLogs (env : Env τ ν) (tableUuid : List UInt8) (a b : LogFile) (old fresh : List (WalRecord τ ν)) : Prop where
  owned : a.header.tableUuid = tableUuid ∧ b.header.tableUuid = tableUuid
  active : Torn env fresh (if decide (b.header.generation > a.header.generation) then b else a).bytes
  retired : Framed env old (if decide (b.header.generation > a.header.generation) then a else b).bytes
  rising : Rising (old ++ fresh)

theorem WalPair.Holds.crashed {env : Env τ ν} {p : WalPair} {tableUuid : List UInt8} {old fresh : List (WalRecord τ ν)}
    (h : p.Holds env old fresh) (howned : p.Owned tableUuid) : CrashedLogs env tableUuid p.a.disk p.b.disk old fresh := by
  have hnewest := h.newest
  obtain ⟨a, b, active⟩ := p
  cases active with
  | false =>
      have ha : a.disk.header = a.header := h.active.header
      have hb : b.disk.header = b.header := h.retired.header
      have hdecide : decide (b.disk.header.generation > a.disk.header.generation) = false := by
        rw [ha, hb]
        exact hnewest
      refine ⟨by rw [ha, hb]; exact howned, ?_, ?_, h.rising⟩
      · rw [hdecide]
        exact h.active.framed.torn
      · rw [hdecide]
        exact h.retired.framed
  | true =>
      have hb : b.disk.header = b.header := h.active.header
      have ha : a.disk.header = a.header := h.retired.header
      have hdecide : decide (b.disk.header.generation > a.disk.header.generation) = true := by
        rw [ha, hb]
        exact hnewest
      refine ⟨by rw [ha, hb]; exact howned, ?_, ?_, h.rising⟩
      · rw [hdecide]
        exact h.active.framed.torn
      · rw [hdecide]
        exact h.retired.framed

theorem le_foldl_lsn (records : List (WalRecord τ ν)) (first : Lsn) :
    first ≤ records.foldl (fun highest record => max highest record.lsn) first ∧
      ∀ record ∈ records, record.lsn ≤ records.foldl (fun highest record => max highest record.lsn) first := by
  induction records generalizing first with
  | nil => exact ⟨le_rfl, by simp⟩
  | cons record records ih =>
      obtain ⟨hfirst, hrest⟩ := ih (max first record.lsn)
      rw [List.foldl_cons]
      refine ⟨(le_max_left _ _).trans hfirst, ?_⟩
      intro other hother
      rcases List.mem_cons.mp hother with rfl | hmem
      · exact (le_max_right _ _).trans hfirst
      · exact hrest other hmem

section Bitmaps

variable {file left : M.File} {entry : SegmentEntry}

/-- The bitmap of each segment is part of its deletions, and all of them unless the segment is dirty. -/
def Manifest.Saved (m : Manifest) (file : M.File) (deletes : SegmentId → Option (Finset Nat)) (dirty : List SegmentId) : Prop :=
  ∀ entry ∈ m.segments, ∃ rows, loadDeletes file entry = .ok rows ∧ rows ⊆ (deletes entry.segmentId).getD ∅ ∧
    (entry.segmentId ∉ dirty → (deletes entry.segmentId).getD ∅ = rows)

theorem loadDeletes_congr (h : ∀ extent, entry.deletes = some extent → ∀ k, M.read left extent k = M.read file extent k) :
    loadDeletes left entry = loadDeletes file entry := by
  unfold loadDeletes
  split
  · rfl
  · next extent hextent => rw [h extent hextent]

/-- A loop over the entries of a manifest that loads the deletions of each. -/
theorem loadDeletes_each {step : (SegmentId → Option (Finset Nat)) → SegmentEntry → Except Error (SegmentId → Option (Finset Nat))}
    (hkeep : ∀ deletes entry, entry.deletes = none → step deletes entry = .ok deletes)
    (hload : ∀ deletes entry rows, entry.deletes.isSome → loadDeletes file entry = .ok rows →
      step deletes entry = .ok (Function.update deletes entry.segmentId (some rows)))
    {entries : List SegmentEntry} {before : SegmentId → Option (Finset Nat)}
    (hnodup : (entries.map SegmentEntry.segmentId).Nodup) (hreads : ∀ entry ∈ entries, ∃ rows, loadDeletes file entry = .ok rows)
    (hnone : ∀ entry ∈ entries, before entry.segmentId = none) :
    ∃ deletes, entries.foldlM step before = .ok deletes ∧
      (∀ entry ∈ entries, loadDeletes file entry = .ok ((deletes entry.segmentId).getD ∅)) ∧
      ∀ id, id ∉ entries.map SegmentEntry.segmentId → deletes id = before id := by
  induction entries generalizing before with
  | nil => exact ⟨before, rfl, by simp, fun _ _ => rfl⟩
  | cons entry entries ih =>
      rw [List.map_cons, List.nodup_cons] at hnodup
      obtain ⟨hfirst, hrest⟩ := hnodup
      have hreads' : ∀ other ∈ entries, ∃ rows, loadDeletes file other = .ok rows := fun other hother =>
        hreads other (List.mem_cons_of_mem _ hother)
      have hnone' : ∀ other ∈ entries, before other.segmentId = none := fun other hother =>
        hnone other (List.mem_cons_of_mem _ hother)
      cases hdeletes : entry.deletes with
      | none =>
          obtain ⟨deletes, hfold, hstored, hothers⟩ := ih hrest hreads' hnone'
          refine ⟨deletes, ?_, ?_, ?_⟩
          · rw [List.foldlM_cons, hkeep before entry hdeletes]
            exact hfold
          · intro other hother
            rcases List.mem_cons.mp hother with rfl | hmem
            · rw [hothers _ hfirst, hnone other List.mem_cons_self, loadDeletes, hdeletes]
              rfl
            · exact hstored other hmem
          · intro id hid
            rw [List.map_cons, List.mem_cons, not_or] at hid
            exact hothers id hid.2
      | some extent =>
          obtain ⟨rows, hrows⟩ := hreads entry List.mem_cons_self
          have hupdated : ∀ other ∈ entries, Function.update before entry.segmentId (some rows) other.segmentId = none := by
            intro other hother
            have hne : other.segmentId ≠ entry.segmentId := fun hsame => hfirst (hsame ▸ List.mem_map_of_mem hother)
            rw [Function.update_of_ne hne]
            exact hnone' other hother
          obtain ⟨deletes, hfold, hstored, hothers⟩ := ih hrest hreads' hupdated
          refine ⟨deletes, ?_, ?_, ?_⟩
          · rw [List.foldlM_cons, hload before entry rows (hdeletes ▸ rfl) hrows]
            exact hfold
          · intro other hother
            rcases List.mem_cons.mp hother with rfl | hmem
            · rw [hothers _ hfirst, Function.update_self]
              exact hrows
            · exact hstored other hmem
          · intro id hid
            rw [List.map_cons, List.mem_cons, not_or] at hid
            rw [hothers id hid.2, Function.update_of_ne hid.1]

/-- Bitmaps that can each be read are read together, each into the place of its segment. -/
theorem Table.loadAllDeletes_ok {m : Manifest} (hnumbered : m.Numbered)
    (h : ∀ entry ∈ m.segments, ∃ rows, loadDeletes file entry = .ok rows) :
    ∃ deletes, Table.loadAllDeletes file m = .ok deletes ∧
      (∀ entry ∈ m.segments, loadDeletes file entry = .ok ((deletes entry.segmentId).getD ∅)) ∧
      ∀ id rows, deletes id = some rows → m.Lists id := by
  have hloaded : ∃ deletes, Table.loadAllDeletes file m = .ok deletes ∧
      (∀ entry ∈ m.segments, loadDeletes file entry = .ok ((deletes entry.segmentId).getD ∅)) ∧
      ∀ id, id ∉ m.segments.map SegmentEntry.segmentId → deletes id = none := by
    unfold Table.loadAllDeletes
    refine loadDeletes_each ?_ ?_ hnumbered.nodup h fun _ _ => rfl
    · intro deletes entry hnone
      rw [hnone]
      rfl
    · intro deletes entry rows hsome hrows
      obtain ⟨extent, hextent⟩ := Option.isSome_iff_exists.mp hsome
      rw [hextent]
      dsimp only
      rw [hrows]
      rfl
  obtain ⟨deletes, hfold, hstored, hothers⟩ := hloaded
  refine ⟨deletes, hfold, hstored, fun id rows hrows => ?_⟩
  by_contra hnone
  have hnotMem : id ∉ m.segments.map SegmentEntry.segmentId := by
    intro hmem
    obtain ⟨entry, hentry, hid⟩ := List.mem_map.mp hmem
    exact hnone ⟨entry, hentry, hid⟩
  rw [hothers id hnotMem] at hrows
  cases hrows

end Bitmaps

namespace Table

variable {env : Env τ ν} {t t' : Table M} {old fresh : List (WalRecord τ ν)}

section Open

variable [DecidableEq τ]

/-- Opening a table up to the flush it may end with. -/
def replayed (env : Env τ ν) (file : M.File) (a b : LogFile) : Except Error (Table M) := do
  let file ← TableFile.openFile file .columnar
  let schema ← TableSchema.new env file.schema
  let deletes ← loadAllDeletes file.io.file file.committed.manifest
  let wal ← WalPair.openPair (some a) (some b) file.header.tableUuid
  let writer ← replay env (openWriter file deletes wal) file.committed.metaPage.checkpointLsn
  return ⟨writer, writer.snapshot schema, [], schema⟩

/-- `open` replays, and then flushes what has grown past its limit. -/
theorem openTable_eq (file : M.File) (a b : LogFile) :
    openTable env file (some a) (some b) = (do
      let t ← replayed env file a b
      t.flushIfNeeded env) := by
  unfold openTable replayed fromFile
  simp only [bind_assoc, pure_bind]
  rfl

end Open

/-- A writer over the file as it would be opened, before anything is replayed into it. -/
structure Base (t : Table M) (w : Writer M) : Prop where
  manifest : w.file.committed.manifest = t.writer.file.committed.manifest
  memtable : w.memtable = Memtable.new t.schema.schema t.writer.file.committed.manifest.nextSeqno
  stored : ∀ entry ∈ t.writer.file.committed.manifest.segments,
    loadDeletes t.writer.file.io.file entry = .ok ((w.deletes entry.segmentId).getD ∅)
  listed : ∀ id rows, w.deletes id = some rows → t.writer.file.committed.manifest.Lists id

/-- The bitmap in the file of each segment is part of the deletions in memory, and all of them unless the log has more. -/
def Saved (t : Table M) : Prop :=
  t.writer.file.committed.manifest.Saved t.writer.file.io.file t.writer.deletes t.writer.dirtyDeletes

/-- A segment that can be read under a schema: its columns are the first there are, and the ones it lacks may be null. -/
def Suits (env : Env τ ν) (schema : Schema τ) (data : SegmentData ν) : Prop :=
  layoutAccepts (schemaLayout env schema) data.columns data.schemaFingerprint = true ∧
    ∀ field ∈ schema.fields.drop data.columns, field.nullable = true

theorem built_suits (hlayout : t.schema.layout = schemaLayout env t.schema.schema) : t.Built (Suits env t.schema.schema) := by
  intro data hcolumns hfingerprint
  rw [Suits, hcolumns, hfingerprint, hlayout, List.drop_length]
  exact ⟨layoutAccepts_current, fun field hfield => absurd hfield List.not_mem_nil⟩

/-- No segment lies behind the metadata it has. -/
def Framed (t : Table M) : Prop :=
  ∀ entry ∈ t.writer.file.committed.manifest.segments, entry.data.offset ≤ entry.metaFrame.offset

/-- What is kept between two operations by a table that could be closed at any moment. -/
structure Durable [DecidableEq τ] (env : Env τ ν) (t : Table M) (old fresh : List (WalRecord τ ν)) : Prop where
  kept : t.Kept
  whole : t.Whole env
  accepted : t.All (Suits env t.schema.schema)
  framed : t.Framed
  logged : t.Logged env old fresh
  owned : t.writer.wal.Owned t.writer.file.header.tableUuid
  schema : readSchema t.writer.file.io.file (schemaExtent t.writer.file.header t.writer.file.committed.manifest) =
    .ok t.schema.schema
  derived : TableSchema.new env t.schema.schema = .ok t.schema
  saved : t.Saved
  named : ∀ record ∈ t.unflushed (old ++ fresh), ∀ id ∈ record.names,
    id < t.writer.file.committed.manifest.nextSegmentId
  seqno : t.writer.file.committed.manifest.nextSeqno ≤ t.writer.memtable.nextSeqno
  /-- Whatever the file opens to, replaying the log gives what the writer has. -/
  replays : ∀ w, t.Base w → ∃ u, (t.unflushed (old ++ fresh)).foldlM (replayRecord env) w = .ok u ∧
    u.Mirrors t.schema.schema t.writer

/-- A file that still holds the commit of the table, whatever else is on it. -/
structure Left (t : Table M) (left : M.File) : Prop where
  sound : TableFile.Sound .columnar { t.writer.file with io := ⟨left, []⟩ }
  reads : ∀ e ∈ t.writer.file.committed.manifest.refs, ∀ k, M.read left e k = M.read t.writer.file.io.file e k
  schema : readSchema left (schemaExtent t.writer.file.header t.writer.file.committed.manifest) =
    readSchema t.writer.file.io.file (schemaExtent t.writer.file.header t.writer.file.committed.manifest)

namespace Left

variable {left : M.File}

theorem data (h : t.Left left) {entry : SegmentEntry} (hentry : entry ∈ t.writer.file.committed.manifest.segments) (k : Kind) :
    M.read left entry.data k = M.read t.writer.file.io.file entry.data k :=
  h.reads entry.data (Manifest.mem_refs.mpr ⟨entry, hentry, .inl rfl⟩) k

theorem deletes (h : t.Left left) {entry : SegmentEntry} (hentry : entry ∈ t.writer.file.committed.manifest.segments) :
    loadDeletes left entry = loadDeletes t.writer.file.io.file entry :=
  loadDeletes_congr fun extent hextent => h.reads extent (Manifest.mem_refs.mpr ⟨entry, hentry, .inr hextent⟩)

theorem all (h : t.Left left) {Q : SegmentData ν → Prop} (hall : t.All Q) :
    t.writer.file.committed.manifest.All left Q := by
  intro entry hentry
  obtain ⟨data, hstores, hdata⟩ := hall entry hentry
  exact ⟨data, ⟨(h.data hentry _).trans hstores.read, hstores.rows⟩, hdata⟩

end Left

/-- What opening a table gives back: its rows and segments, its schema, and where it counts on from. -/
structure Resumes (env : Env τ ν) (t t' : Table M) : Prop where
  held : t'.held env = t.held env
  schema : t'.schema = t.schema
  manifest : t'.writer.file.committed.manifest = t.writer.file.committed.manifest
  nextSeqno : t'.writer.memtable.nextSeqno = t.writer.memtable.nextSeqno

/-- What the table opens to: its file and logs as they were left, with a writer that replaying made. -/
structure Opened [DecidableEq τ] (env : Env τ ν) (t : Table M) (left : M.File) (old fresh : List (WalRecord τ ν)) (t' : Table M) :
    Prop where
  current : t'.current = t'.writer.snapshot t'.schema
  pins : t'.pins = []
  schema : t'.schema = t.schema
  sound : t'.writer.file.Sound .columnar
  file : t'.writer.file.io.file = left
  header : t'.writer.file.header = t.writer.file.header
  stored : t'.writer.file.schema = t.schema.schema
  committed : t'.writer.file.committed = t.writer.file.committed
  wal : t'.writer.wal.Holds env old fresh
  owned : t'.writer.wal.Owned t.writer.file.header.tableUuid
  nextLsn : t'.writer.nextLsn =
    (t.unflushed (old ++ fresh)).foldl (fun highest record => max highest record.lsn) t.checkpoint + 1
  mirrors : t'.writer.Mirrors t.schema.schema t.writer
  /-- What replaying did not touch is what the bitmap of the segment says. -/
  clean : ∀ entry ∈ t.writer.file.committed.manifest.segments, entry.segmentId ∉ t'.writer.dirtyDeletes →
    loadDeletes left entry = .ok ((t'.writer.deletes entry.segmentId).getD ∅)

section Reopen

variable [DecidableEq τ] {left : M.File} {old' fresh' : List (WalRecord τ ν)}

namespace Opened

theorem manifest (hopened : Opened env t left old' fresh' t') :
    t'.writer.file.committed.manifest = t.writer.file.committed.manifest :=
  congrArg Committed.manifest hopened.committed

theorem checkpoint (hopened : Opened env t left old' fresh' t') : t'.checkpoint = t.checkpoint :=
  congrArg (fun committed : Committed => committed.metaPage.checkpointLsn) hopened.committed

theorem unflushed (hopened : Opened env t left old' fresh' t') (records : List (WalRecord τ ν)) :
    t'.unflushed records = t.unflushed records := by
  unfold Table.unflushed
  rw [hopened.checkpoint]

theorem deletes (hopened : Opened env t left old' fresh' t') {entry : SegmentEntry}
    (hentry : entry ∈ t.writer.file.committed.manifest.segments) :
    (t'.writer.deletes entry.segmentId).getD ∅ = (t.writer.deletes entry.segmentId).getD ∅ :=
  hopened.mirrors.deletes entry.segmentId ⟨entry, hentry, rfl⟩

theorem all (hopened : Opened env t left old' fresh' t') (hleft : t.Left left) {Q : SegmentData ν → Prop} (hall : t.All Q) :
    t'.All Q := by
  unfold All
  rw [hopened.manifest, hopened.file]
  exact hleft.all hall

theorem tidy (hopened : Opened env t left old' fresh' t') (h : t.Durable env old fresh) : t'.Tidy := by
  have hmirrors := hopened.mirrors
  refine ⟨hmirrors.wf, ?_, hopened.manifest ▸ h.kept.numbered, ?_, ?_, ?_, ?_, ?_⟩
  · rw [hopened.current]
    exact Memtable.rowsOf_batches _
  · intro id rows hrows
    obtain ⟨entry, hentry, rfl⟩ := hmirrors.listed id rows hrows
    rw [hopened.manifest]
    exact h.kept.numbered.below entry hentry
  · rw [hopened.manifest]
    intro entry hentry rows hrows position hposition
    have hgetD := hopened.deletes hentry
    rw [hrows, Option.getD_some] at hgetD
    rw [hgetD] at hposition
    cases hold : t.writer.deletes entry.segmentId with
    | none => simp [hold] at hposition
    | some rows' =>
        rw [hold] at hposition
        exact h.whole.tidy.bounded entry hentry rows' hold position hposition
  · rw [hopened.stored, hopened.schema]
  · rw [hopened.current, hopened.schema]
    exact hopened.stored
  · rw [hopened.current]
    rfl

theorem whole (hopened : Opened env t left old' fresh' t') (hleft : t.Left left) (h : t.Durable env old fresh) :
    t'.Whole env := by
  have hsynced : t'.Synced := by
    constructor
    · rw [hopened.current]
      rfl
    · rw [hopened.current]
      rfl
  refine ⟨⟨hopened.sound.settled.roomy, hsynced, hopened.manifest ▸ h.kept.numbered, ?_⟩, hopened.tidy h,
    hopened.all hleft h.whole.all, ?_, ?_, hopened.manifest ▸ h.whole.freedPos⟩
  · rw [hopened.pins]
    simp
  · rw [Fresh, hopened.current]
    exact fresh_snapshot _ _
  · rw [hopened.schema]
    exact h.whole.layout

theorem logged (hopened : Opened env t left old' fresh' t') (h : t.Durable env old fresh) : t'.Logged env old' fresh' := by
  obtain ⟨hlow, hhigh⟩ := le_foldl_lsn (t.unflushed (old' ++ fresh')) t.checkpoint
  refine ⟨hopened.wal, fun record hrecord => ?_, ?_, ?_⟩
  · rw [hopened.nextLsn]
    by_cases hunfolded : record.lsn > t.checkpoint
    · exact Nat.lt_succ_of_le (hhigh record (List.mem_filter.mpr ⟨hrecord, decide_eq_true hunfolded⟩))
    · exact Nat.lt_succ_of_le ((Nat.not_lt.mp hunfolded).trans hlow)
  · rw [hopened.checkpoint, hopened.nextLsn]
    exact Nat.lt_succ_of_le hlow
  · rw [hopened.checkpoint, hopened.manifest]
    exact h.logged.stamped

theorem saved (hopened : Opened env t left old' fresh' t') (hleft : t.Left left) (h : t.Durable env old fresh) : t'.Saved := by
  rw [Saved, hopened.manifest, hopened.file]
  intro entry hentry
  obtain ⟨rows, hrows, hsub, -⟩ := h.saved entry hentry
  have hread := (hleft.deletes hentry).trans hrows
  refine ⟨rows, hread, ?_, fun hclean => ?_⟩
  · rw [hopened.deletes hentry]
    exact hsub
  · exact Except.ok.inj ((hopened.clean entry hentry hclean).symm.trans hread)

/-- The log is replayed over this file with the same outcome once more. -/
theorem replays (hopened : Opened env t left old' fresh' t') (hleft : t.Left left) (h : t.Durable env old fresh) {w : Writer M}
    (hw : t'.Base w) : ∃ u, (t.unflushed (old ++ fresh)).foldlM (replayRecord env) w = .ok u ∧
      u.Mirrors t'.schema.schema t'.writer := by
  have hbase : t.Base w := by
    refine ⟨hw.manifest.trans hopened.manifest, by rw [hw.memtable, hopened.manifest, hopened.schema], ?_,
      hopened.manifest ▸ hw.listed⟩
    intro entry hentry
    rw [← hleft.deletes hentry, ← hopened.file]
    exact hw.stored entry (by rw [hopened.manifest]; exact hentry)
  obtain ⟨u, hfold, hmirrors⟩ := h.replays w hbase
  refine ⟨u, hfold, ?_⟩
  rw [hopened.schema]
  exact hmirrors.same hopened.manifest hopened.mirrors.live hopened.mirrors.nextSeqno hopened.mirrors.deletes

theorem durable (hopened : Opened env t left old' fresh' t') (hleft : t.Left left) (h : t.Durable env old fresh)
    (hsame : t.unflushed (old' ++ fresh') = t.unflushed (old ++ fresh)) : t'.Durable env old' fresh' where
  kept := ⟨hopened.sound, (hopened.whole hleft h).housed.synced, (hopened.tidy h).numbered⟩
  whole := hopened.whole hleft h
  accepted := by
    rw [hopened.schema]
    exact hopened.all hleft h.accepted
  framed := by
    unfold Framed
    rw [hopened.manifest]
    exact h.framed
  logged := hopened.logged h
  owned := by
    rw [hopened.header]
    exact hopened.owned
  schema := by
    rw [hopened.manifest, hopened.file, hopened.header, hopened.schema]
    exact hleft.schema.trans h.schema
  derived := by
    rw [hopened.schema]
    exact h.derived
  saved := hopened.saved hleft h
  named := by
    rw [hopened.unflushed, hsame, hopened.manifest]
    exact h.named
  seqno := by
    rw [hopened.manifest]
    exact h.seqno.trans_eq hopened.mirrors.nextSeqno.symm
  replays w hw := by
    rw [hopened.unflushed, hsame]
    exact hopened.replays hleft h hw

theorem resumes (hopened : Opened env t left old' fresh' t') (hleft : t.Left left) : t.Resumes env t' := by
  refine ⟨?_, hopened.schema, hopened.manifest, hopened.mirrors.nextSeqno⟩
  apply held_congr
  · rw [hopened.manifest]
  · intro entry hentry
    rw [hopened.file]
    exact hleft.data hentry _
  · intro entry hentry
    exact hopened.deletes hentry
  · exact hopened.mirrors.live
  · rw [hopened.schema]

end Opened

/-- A file and logs that a crash left do open. -/
theorem Durable.opened (h : t.Durable env old fresh) {a b : LogFile} (hleft : t.Left left)
    (hlogs : CrashedLogs env t.writer.file.header.tableUuid a b old' fresh')
    (hsame : t.unflushed (old' ++ fresh') = t.unflushed (old ++ fresh)) :
    ∃ t', replayed env left a b = .ok t' ∧ Opened env t left old' fresh' t' := by
  obtain ⟨f, hopen, hsound, hio, hheader, hcommitted, hschema⟩ := hleft.sound.opens
  dsimp only at hopen hheader hcommitted hschema
  have hfschema : f.schema = t.schema.schema :=
    Except.ok.inj (hschema.symm.trans (hleft.schema.trans h.schema))
  have hloads : ∀ entry ∈ f.committed.manifest.segments, ∃ rows, loadDeletes f.io.file entry = .ok rows := by
    rw [hcommitted, hio]
    intro entry hentry
    obtain ⟨rows, hrows, -⟩ := h.saved entry hentry
    exact ⟨rows, (hleft.deletes hentry).trans hrows⟩
  obtain ⟨deletes, hdeletes, hstored, hlisted⟩ := loadAllDeletes_ok (by rw [hcommitted]; exact h.kept.numbered) hloads
  rw [hcommitted, hio] at hstored
  rw [hcommitted] at hlisted
  obtain ⟨opened, p, hpair, hrecover, hholds, hheadA, hheadB⟩ :=
    WalPair.recover_torn rfl hlogs.owned hlogs.active hlogs.retired hlogs.rising
  have hbase : t.Base (openWriter f deletes p) := by
    refine ⟨congrArg Committed.manifest hcommitted, ?_, ?_, hlisted⟩
    · change Memtable.new f.schema f.committed.manifest.nextSeqno = _
      rw [hfschema, hcommitted]
    · intro entry hentry
      exact (hleft.deletes hentry).symm.trans (hstored entry hentry)
  obtain ⟨u, hfold, hmirrors⟩ := h.replays _ hbase
  -- replaying touches neither the file nor the logs
  have hufile : u.file = f := foldlM_ok (f := replayRecord env) (P := fun q : Writer M => q.file = f)
    (fun _ _ _ hs hstep => (replayRecord_file hstep).trans hs) rfl hfold
  have huwal : u.wal = p := foldlM_ok (f := replayRecord env) (P := fun q : Writer M => q.wal = p)
    (fun _ _ _ hs hstep => (replayRecord_wal hstep).trans hs) rfl hfold
  have hukept : u.Kept deletes := foldlM_ok (f := replayRecord env) (P := fun q : Writer M => q.Kept deletes)
    (fun _ _ _ hs hstep => hs.replayRecord hstep) (fun _ _ => rfl) hfold
  let nextLsn := (t.unflushed (old' ++ fresh')).foldl (fun highest record => max highest record.lsn) t.checkpoint + 1
  let t' : Table M := ⟨{ u with nextLsn := nextLsn }, Writer.snapshot { u with nextLsn := nextLsn } t.schema, [], t.schema⟩
  have hreplay : replay env (openWriter f deletes opened) f.committed.metaPage.checkpointLsn =
      .ok { u with nextLsn := nextLsn } := by
    unfold replay
    apply bind_eq_ok.mpr
    refine ⟨(old' ++ fresh', p), hrecover, ?_⟩
    rw [hcommitted]
    change (do
      let w ← (t.unflushed (old' ++ fresh')).foldlM (replayRecord env) (openWriter f deletes p)
      return { w with nextLsn := nextLsn }) = _
    rw [hsame, hfold]
    rfl
  have hreplayed : replayed env left a b = .ok t' := by
    refine bind_eq_ok.mpr ⟨f, hopen, bind_eq_ok.mpr ⟨t.schema, ?_, bind_eq_ok.mpr ⟨deletes, hdeletes,
      bind_eq_ok.mpr ⟨opened, ?_, bind_eq_ok.mpr ⟨_, hreplay, rfl⟩⟩⟩⟩⟩
    · rw [hfschema]
      exact h.derived
    · rw [hheader]
      exact hpair
  refine ⟨t', hreplayed, {
    current := rfl
    pins := rfl
    schema := rfl
    sound := ?_
    file := ?_
    header := ?_
    stored := ?_
    committed := ?_
    wal := ?_
    owned := ?_
    nextLsn := rfl
    mirrors := ⟨hmirrors.manifest, hmirrors.wf, hmirrors.schema, hmirrors.live, hmirrors.nextSeqno, hmirrors.deletes,
      hmirrors.listed⟩
    clean := fun entry hentry hclean => ?_ }⟩
  · exact hufile.symm ▸ hsound
  · change u.file.io.file = left
    rw [hufile, hio]
  · exact hufile.symm ▸ hheader
  · exact hufile.symm ▸ hfschema
  · exact hufile.symm ▸ hcommitted
  · exact huwal.symm ▸ hholds
  · change u.wal.Owned _
    rw [huwal]
    exact ⟨by rw [hheadA]; exact hlogs.owned.1, by rw [hheadB]; exact hlogs.owned.2⟩
  · change loadDeletes left entry = .ok ((u.deletes entry.segmentId).getD ∅)
    rw [hukept entry.segmentId hclean]
    exact hstored entry hentry

/-- What the table opens to, given what is left of its file and of its logs: the same rows at the same addresses. -/
theorem Durable.reopens (h : t.Durable env old fresh) {a b : LogFile} (hleft : t.Left left)
    (hlogs : CrashedLogs env t.writer.file.header.tableUuid a b old' fresh')
    (hsame : t.unflushed (old' ++ fresh') = t.unflushed (old ++ fresh)) :
    ∃ t', replayed env left a b = .ok t' ∧ t'.Durable env old' fresh' ∧ t.Resumes env t' := by
  obtain ⟨t', hreplayed, hopened⟩ := h.opened hleft hlogs hsame
  exact ⟨t', hreplayed, hopened.durable hleft h hsame, hopened.resumes hleft⟩

end Reopen

end Table

end LocalTables
