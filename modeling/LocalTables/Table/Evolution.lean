import LocalTables.Table.Durability

/-! Columns that are added and renamed, among calls, housekeeping and crashes. Such a change writes a schema and leaves the
segments as they are. It waits for the memtable to be flushed, and is safe once the logs have nothing more to replay. -/

namespace LocalTables

variable {τ ν : Type} {M : Media τ ν}

/-- What a change that leaves the segments as they are means: the columns there are to be, and what becomes of a row. -/
def Change.meaning [DecidableEq τ] (env : Env τ ν) (current : Schema τ) (c : Change τ) :
    Option (Schema τ × (Row ν → Row ν)) :=
  match c.plan env current with
  | .ok (some (schema, false)) => some (schema, c.rowOf env current)
  | _ => none

theorem Change.meaning_eq [DecidableEq τ] {env : Env τ ν} {current schema : Schema τ} {c : Change τ}
    (h : c.plan env current = .ok (some (schema, false))) : c.meaning env current = some (schema, c.rowOf env current) := by
  rw [meaning, h]

namespace Table

variable {env : Env τ ν} {t t' t₁ : Table M} {old fresh : List (WalRecord τ ν)}

/-- Whether all that the logs still hold is in the file. -/
def folded (env : Env τ ν) (t : Table M) : Bool :=
  match t.writer.wal.recover env with
  | .ok (records, _) => (t.unflushed records).isEmpty
  | .error _ => true

theorem Logged.unflushed_of_folded (h : t.Logged env old fresh) (hfolded : t.folded env) : t.unflushed (old ++ fresh) = [] := by
  obtain ⟨wal, hrecover⟩ := h.holds.recover
  unfold folded at hfolded
  rw [hrecover] at hfolded
  exact List.isEmpty_iff.mp hfolded

theorem Logged.folded_of_unflushed (h : t.Logged env old fresh) (hnone : t.unflushed (old ++ fresh) = []) : t.folded env := by
  obtain ⟨wal, hrecover⟩ := h.holds.recover
  unfold folded
  rw [hrecover]
  exact List.isEmpty_iff.mpr hnone

section Adopts

variable [DecidableEq τ] {before after : TableSchema τ} {s : Snapshot τ ν}

/-- What a change that leaves the segments as they are does, and what a crash on the way leaves. -/
structure Adopts (t : Table M) (after : TableSchema τ) (t' : Table M) : Prop where
  live : t.writer.memtable.live = []
  schema : t'.schema = after
  memtable : t'.writer.memtable = Memtable.new after.schema t.writer.memtable.nextSeqno
  deletes : t'.writer.deletes = t.writer.deletes
  dirtyDeletes : t'.writer.dirtyDeletes = t.writer.dirtyDeletes
  wal : t'.writer.wal = t.writer.wal
  header : t'.writer.file.header = t.writer.file.header
  segments : t'.writer.file.committed.manifest.segments = t.writer.file.committed.manifest.segments
  nextSegmentId : t'.writer.file.committed.manifest.nextSegmentId = t.writer.file.committed.manifest.nextSegmentId
  nextSeqno : t'.writer.file.committed.manifest.nextSeqno = t.writer.file.committed.manifest.nextSeqno
  reads : ∀ e ∈ t.writer.file.committed.manifest.refs, ∀ k,
    M.read t'.writer.file.io.file e k = M.read t.writer.file.io.file e k
  stored : readSchema t'.writer.file.io.file (schemaExtent t'.writer.file.header t'.writer.file.committed.manifest) =
    .ok after.schema
  leaves : ∀ left, t.CutShort t' left → t.Left left ∨ t'.Left left

theorem setSchemaLocked_adopts (h : t.Kept) (hwf : t.writer.memtable.Wf)
    (hok : t.setSchemaLocked env before after false s = .ok t') : t.Adopts after t' := by
  obtain ⟨t₁, hchange, rfl⟩ := setSchemaLocked_ok hok
  obtain ⟨hempty, extent, file, hwrite, ⟨-, f, hcommit, rfl⟩ | ⟨hfalse, -⟩⟩ := commitSchema_ok hchange
  · have hprepared : Prepared t.minActiveTxn t.writer.file extent
        ⟨file.io, { t.writer.file.beginManifest with schema := extent }⟩ := (Prepared.beginSchema h.sound hwrite).2.2.2
    obtain ⟨-, hdrafted⟩ := Drafted.beginSchema t.minActiveTxn h.sound.settled.roomy hwrite
    obtain ⟨hstamps, -, hheader, -, hsegments, hnextId⟩ := TableFile.commit_stamps hcommit
    obtain ⟨n, hsize, hextent, hio⟩ : ∃ n, M.size (.schema after.schema) = .ok n ∧ extent = ⟨t.writer.file.io.len, n⟩ ∧
        file.io = t.writer.file.io.request (.write t.writer.file.io.len (.schema after.schema)) := by
      obtain ⟨⟨e', io⟩, happend, heq⟩ := bind_eq_ok.mp hwrite
      obtain ⟨rfl, rfl⟩ := Prod.mk.inj (Except.ok.inj heq)
      exact FileIo.append_ok happend
    have hpos : 0 < extent.len := hextent ▸ M.size_pos _ n hsize
    have hissued : FileIo.Issued t.writer.file.io [.write t.writer.file.io.len (.schema after.schema)] file.io := by
      rw [hio]
      exact FileIo.issued_request _ _
    have hdone : f.io.file = M.applyAll file.io.file (TableFile.commitRequests { t.writer.file with io := file.io }
        { t.writer.file.beginManifest with schema := extent }) := (TableFile.issued_commit hcommit).2
    refine ⟨?_, rfl, rfl, rfl, rfl, rfl, hheader, hsegments, hnextId, congrArg (fun stamps => stamps.2.1) hstamps, ?_, ?_, ?_⟩
    · have hnone : t.writer.memtable.liveRows = 0 := beq_iff_eq.mp hempty
      rw [hwf.liveRows] at hnone
      exact List.length_eq_zero_iff.mp hnone
    · intro e he k
      have hsafe := h.sound.safe h.min_le (List.mem_append_right _ he) (h.sound.settled.refsPos e he)
      obtain ⟨ops, hops, hspares⟩ := hprepared.commit_spares hcommit
      have hspared := hspares e (.inr hsafe) (TableFile.page_apart_of_dataStart _ hsafe.low)
      have hguarded : Guarded t.minActiveTxn t.writer.file.beginManifest e := .inr hsafe
      change M.read f.io.file e k = _
      rw [hops.2]
      exact (Media.applyAll_spared hspared (h.sound.settled.ledger.guarded_inFile hguarded)).2 k
    · have hlow : dataStart ≤ extent.offset ∧ extent.stop ≤ file.io.len := hprepared.ledger.floatAt.resolve_left hpos.ne'
      have hplace : schemaExtent f.header f.committed.manifest = extent := by
        have hschema : f.committed.manifest.schema = extent := congrArg (fun stamps => stamps.2.2) hstamps
        unfold schemaExtent
        rw [hschema, if_neg (by simp [Extent.isEmpty, hpos.ne'])]
      have hwritten : M.read file.io.file extent .schema = .ok (.schema after.schema) := by
        rw [hio, hextent]
        exact TableFile.request_write_self t.writer.file.io ⟨t.writer.file.io.len, n⟩ hsize
      change readSchema f.io.file (schemaExtent f.header f.committed.manifest) = _
      rw [hplace]
      apply readSchema_of_read
      rw [hdone, ← hwritten]
      have hcut := Media.Cut.applyAll file.io.file (TableFile.commitRequests { t.writer.file with io := file.io }
        { t.writer.file.beginManifest with schema := extent })
      have hapart := TableFile.page_apart_of_dataStart t.writer.file.nextSlot hlow.1
      exact (TableFile.spared_commitCut (t := { t.writer.file with io := file.io }) hcut hlow.2 hapart).2 .schema
    · intro left hcut
      apply hcut.leaves_of h hprepared hdrafted hissued ?_ hcommit rfl
      intro n hn
      simp at hn
  · cases hfalse

/-- A change that leaves the segments as they are reads nothing of them. -/
theorem setSchemaLocked_kept (t : Table M) (before after : TableSchema τ) (s : Snapshot τ ν) :
    t.setSchemaLocked env before after false s = t.setSchemaLocked env t.schema after false t.current := rfl

theorem Whole.setSchemaLocked (h : t.Whole env) {schema : Schema τ} (hafter : TableSchema.new env schema = .ok after)
    (hok : t.setSchemaLocked env before after false s = .ok t') : t'.Whole env := by
  rw [setSchemaLocked_kept] at hok
  obtain ⟨hschema, hlayout⟩ := TableSchema.new_schema hafter
  have hstirs : Stirs env t t' := .locked (.setSchema _ _ _ hok)
  refine ⟨hstirs.housed h.housed, hstirs.tidy h.tidy, hstirs.stores h.housed h.all, ?_, ?_,
    setSchemaLocked_freedPos h.freedPos h.housed.numbered h.housed.captured hok⟩
  · obtain ⟨t₁, -, rfl⟩ := setSchemaLocked_ok hok
    exact fun id => fresh_snapshot _ _ id
  · rw [setSchemaLocked_schema hok, hlayout, hschema]

variable {c : Change τ} {schema : Schema τ}

omit [DecidableEq τ] in
theorem Adopts.loadDeletes (h : t.Adopts after t') {entry : SegmentEntry}
    (hentry : entry ∈ t.writer.file.committed.manifest.segments) :
    LocalTables.loadDeletes t'.writer.file.io.file entry = LocalTables.loadDeletes t.writer.file.io.file entry :=
  loadDeletes_congr fun extent hextent => h.reads extent (Manifest.mem_refs.mpr ⟨entry, hentry, .inr hextent⟩)

/-- With nothing left to replay, what the file opens to is what the writer has. -/
theorem Durable.replays_nothing (h : t.Durable env old fresh) (hnone : t.unflushed (old ++ fresh) = []) {w : Writer M}
    (hw : t.Base w) : w.Mirrors t.schema.schema t.writer := by
  obtain ⟨u, hfold, hmirrors⟩ := h.replays w hw
  rw [hnone] at hfold
  obtain rfl := Except.ok.inj hfold
  exact hmirrors

theorem plan_nullable {current : Schema τ} (h : c.plan env current = .ok (some (schema, false))) {columns : Nat}
    (hcolumns : columns ≤ current.fields.length) (hnull : ∀ field ∈ current.fields.drop columns, field.nullable = true) :
    ∀ field ∈ schema.fields.drop columns, field.nullable = true := by
  cases c with
  | addColumn added =>
      have hadded : added.nullable = true := by
        by_contra hnot
        rw [Change.plan, if_pos hnot] at h
        cases h
      obtain ⟨rfl, -⟩ := Prod.mk.inj (Option.some.inj (plan_addColumn h))
      intro field hfield
      rw [schemaWith, List.drop_append_of_le_length hcolumns] at hfield
      rcases List.mem_append.mp hfield with hfield | hfield
      · exact hnull field hfield
      · rw [List.mem_singleton.mp hfield]
        exact hadded
  | renameColumn source target =>
      obtain ⟨index, -, hplanned⟩ := plan_renameColumn h
      obtain ⟨rfl, -⟩ := Prod.mk.inj (Option.some.inj hplanned)
      intro field hfield
      obtain ⟨place, hplace⟩ := List.getElem?_of_mem hfield
      rw [schemaWith, List.getElem?_drop, List.getElem?_modify] at hplace
      obtain ⟨old, hold, rfl⟩ := Option.map_eq_some_iff.mp hplace
      have hnullable := hnull old (List.mem_of_getElem? (by rw [List.getElem?_drop]; exact hold))
      split
      · exact hnullable
      · exact hnullable
  | dropColumn name =>
      obtain ⟨index, -, hplanned⟩ := plan_dropColumn h
      cases hplanned
  | castColumn name target =>
      cases castColumn_rewrites h

/-- A change that leaves the segments as they are leaves them readable. -/
theorem plan_suits {current : Schema τ} (h : c.plan env current = .ok (some (schema, false))) {data : SegmentData ν}
    (hsuits : Suits env current data) : Suits env schema data :=
  ⟨plan_accepts h hsuits.1, plan_nullable h (layoutAccepts_iff.mp hsuits.1).1 hsuits.2⟩

/-- A change of columns that the log has nothing more to say about leaves the table as durable. -/
theorem Durable.setSchemaLocked (h : t.Durable env old fresh) (hplan : c.plan env t.schema.schema = .ok (some (schema, false)))
    (hafter : TableSchema.new env schema = .ok after) (hnone : t.unflushed (old ++ fresh) = [])
    (hok : t.setSchemaLocked env before after false s = .ok t') : t'.Durable env old fresh := by
  have hadopts := setSchemaLocked_adopts h.kept h.whole.tidy.memtable hok
  obtain ⟨hsame, -⟩ := TableSchema.new_schema hafter
  obtain ⟨hlogged, hunflushed⟩ := h.logged.setSchemaLocked hok
  have hschema : t'.schema.schema = schema := by rw [hadopts.schema, hsame]
  refine {
    kept := h.kept.advances (setSchemaLocked_advances h.kept hok)
    whole := h.whole.setSchemaLocked hafter hok
    accepted := ?_
    framed := ?_
    logged := hlogged
    owned := ?_
    schema := ?_
    derived := ?_
    saved := ?_
    named := ?_
    seqno := ?_
    replays := ?_ }
  · rw [hschema]
    exact (h.accepted.setSchemaLocked h.whole.housed hok).mono fun data hdata => plan_suits hplan hdata
  · unfold Framed
    rw [hadopts.segments]
    exact h.framed
  · rw [hadopts.wal, hadopts.header]
    exact h.owned
  · rw [hadopts.schema]
    exact hadopts.stored
  · rw [hschema, hadopts.schema]
    exact hafter
  · intro entry hentry
    rw [hadopts.segments] at hentry
    rw [hadopts.loadDeletes hentry, hadopts.deletes, hadopts.dirtyDeletes]
    exact h.saved entry hentry
  · rw [hunflushed, hnone]
    intro record hrecord
    cases hrecord
  · rw [hadopts.nextSeqno, hadopts.memtable]
    exact h.seqno
  · intro w hw
    rw [hunflushed, hnone]
    refine ⟨w, rfl, ?_⟩
    have hbase : t.Base { w with
        file := t.writer.file
        memtable := Memtable.new t.schema.schema t.writer.file.committed.manifest.nextSeqno } := by
      refine ⟨rfl, rfl, ?_, ?_⟩
      · intro entry hentry
        rw [← hadopts.loadDeletes hentry]
        exact hw.stored entry (by rw [hadopts.segments]; exact hentry)
      · intro id rows hrows
        obtain ⟨entry, hentry, hid⟩ := hw.listed id rows hrows
        exact ⟨entry, hadopts.segments ▸ hentry, hid⟩
    have hmirrors := h.replays_nothing hnone hbase
    have hseqno : t.writer.file.committed.manifest.nextSeqno = t.writer.memtable.nextSeqno := hmirrors.nextSeqno
    refine ⟨hw.manifest, ?_, ?_, ?_, ?_, ?_, hw.listed⟩
    · rw [hw.memtable]
      exact .new _ _
    · rw [hw.memtable]
      rfl
    · rw [hw.memtable, hadopts.memtable]
      rfl
    · rw [hw.memtable, hadopts.memtable, hadopts.nextSeqno]
      exact hseqno
    · rintro id ⟨entry, hentry, hid⟩
      rw [hadopts.deletes]
      exact hmirrors.deletes id ⟨entry, hadopts.segments ▸ hentry, hid⟩

/-- Every row is where it was, with the columns there now are. -/
theorem held_setSchemaLocked (h : t.Durable env old fresh) (hplan : c.plan env t.schema.schema = .ok (some (schema, false)))
    (hafter : TableSchema.new env schema = .ok after) (hadopts : t.Adopts after t') :
    t'.held env = (t.held env).map fun entry => (entry.1, c.rowOf env t.schema.schema entry.2) := by
  obtain ⟨hsame, hlayout⟩ := TableSchema.new_schema hafter
  have hshown : ∀ entry ∈ t.writer.file.committed.manifest.segments, t'.heldIn env entry =
      (t.heldIn env entry).map fun held => (held.1, c.rowOf env t.schema.schema held.2) := by
    intro entry hentry
    obtain ⟨data, hstores, haccepts, -⟩ := h.accepted entry hentry
    have hread : M.read t'.writer.file.io.file entry.data (.segment entry.metaAt) = .ok (.segment data) := by
      rw [hadopts.reads entry.data (Manifest.mem_refs.mpr ⟨entry, hentry, .inl rfl⟩)]
      exact hstores.read
    have hbefore : segmentReader t.writer.file.io.file entry t.schema.layout = .ok data := by
      apply hstores.reads
      rw [h.whole.layout]
      exact haccepts
    have hnow : segmentReader t'.writer.file.io.file entry t'.schema.layout = .ok data := by
      apply segmentReader_eq_ok hread
      rw [hadopts.schema, hlayout]
      exact plan_accepts hplan haccepts
    rw [heldIn, heldIn, SegmentEntry.heldIn_eq hnow, SegmentEntry.heldIn_eq hbefore, List.map_map, hadopts.deletes,
      hadopts.schema, hsame]
    apply List.map_congr_left
    intro row _
    exact congrArg (Prod.mk _) (padRow_plan hplan (layoutAccepts_iff.mp haccepts).1 row.1)
  have hmemtable : t'.writer.memtable.held = [] ∧ t.writer.memtable.held = [] := by
    rw [hadopts.memtable, Memtable.held, Memtable.held, hadopts.live]
    exact ⟨rfl, rfl⟩
  rw [held, held, hadopts.segments, hmemtable.1, hmemtable.2, List.flatMap_congr hshown, Multiset.coe_nil, add_zero,
    add_zero, Multiset.map_coe, List.map_flatMap]

end Adopts

section Runs

variable [DecidableEq τ]

/-- What happens to a table whose columns may change: what happens to any table, a change that waits for the lock with nothing
left in the memtable or to replay, or a crash on the way to its commit, after which the table is opened again. -/
inductive Evolves (env : Env τ ν) : Table M → Bag.Shaped.Event (Change τ) RowId (Row ν) → Table M → Prop where
  | happens {t t' : Table M} {event : Bag.Event RowId (Row ν)} (h : Happens env t event t') : Evolves env t (.values event) t'
  | change {t t' : Table M} {c : Change τ} {schema : Schema τ} {before after : TableSchema τ} {s : Snapshot τ ν}
      (hplan : c.plan env t.schema.schema = .ok (some (schema, false))) (hafter : TableSchema.new env schema = .ok after)
      (hfolded : t.folded env) (hok : t.setSchemaLocked env before after false s = .ok t') : Evolves env t (.change c) t'
  | cutChange {t t₁ t' : Table M} {c : Change τ} {schema : Schema τ} {before after : TableSchema τ} {s : Snapshot τ ν}
      {left : M.File} (hplan : c.plan env t.schema.schema = .ok (some (schema, false)))
      (hafter : TableSchema.new env schema = .ok after) (hfolded : t.folded env)
      (hok : t.setSchemaLocked env before after false s = .ok t₁) (hcut : t.CutShort t₁ left)
      (hopen : replayed env left t.writer.wal.a.disk t.writer.wal.b.disk = .ok t') : Evolves env t (.cutChange c) t'

theorem Happens.schema (h : t.Durable env old fresh) {event : Bag.Event RowId (Row ν)} (hstep : Happens env t event t') :
    t'.schema = t.schema := by
  cases hstep with
  | write hwrites =>
      obtain ⟨more, hrecord⟩ := hwrites.recorded h
      exact hrecord.appends.schema
  | flush hsorts hok => exact flushLocked_schema hok
  | compact hids hread hfits hok => exact compactLocked_schema hok
  | deleteSegments hsafe hok => exact deleteSegments_schema hok
  | pin => rfl
  | unpin index => rfl
  | crash hcrash hopen =>
      obtain ⟨t₂, -, -, hopen', -, -, hschema⟩ := hcrash.recovers h
      obtain rfl := Except.ok.inj (hopen'.symm.trans hopen)
      exact hschema

/-- A table as its users think of it: columns, and a bag of rows. -/
def sheet (env : Env τ ν) (t : Table M) : Bag.Shaped (Schema τ) RowId (Row ν) := ⟨t.schema.schema, t.held env⟩

omit [DecidableEq τ] in
theorem sheet_resumed (h : t.Resumes env t') : t'.sheet env = t.sheet env := by
  rw [sheet, sheet, h.held, h.schema]

/-- The columns a change plans, and the rows as it means them to be. -/
theorem Durable.reshapes (h : t.Durable env old fresh) {c : Change τ} {schema : Schema τ} {before after : TableSchema τ}
    {s : Snapshot τ ν} (hplan : c.plan env t.schema.schema = .ok (some (schema, false)))
    (hafter : TableSchema.new env schema = .ok after) (hok : t.setSchemaLocked env before after false s = .ok t') :
    (t.sheet env).Reshapes (Change.meaning env) c (t'.sheet env) := by
  have hadopts := setSchemaLocked_adopts h.kept h.whole.tidy.memtable hok
  refine ⟨schema, c.rowOf env t.schema.schema, Change.meaning_eq hplan, ?_⟩
  rw [sheet, hadopts.schema, (TableSchema.new_schema hafter).1, held_setSchemaLocked h hplan hafter hadopts]
  rfl

/-- What a crash inside a change of columns leaves opens again, as the table before the change or as the one after it. -/
theorem Durable.recovers_change (h : t.Durable env old fresh) {c : Change τ} {schema : Schema τ} {before after : TableSchema τ}
    {s : Snapshot τ ν} {left : M.File} (hplan : c.plan env t.schema.schema = .ok (some (schema, false)))
    (hafter : TableSchema.new env schema = .ok after) (hfolded : t.folded env)
    (hok : t.setSchemaLocked env before after false s = .ok t₁) (hcut : t.CutShort t₁ left) :
    ∃ t', replayed env left t.writer.wal.a.disk t.writer.wal.b.disk = .ok t' ∧ t'.Durable env old fresh ∧
      (t.Resumes env t' ∨ t₁.Resumes env t') := by
  have hadopts := setSchemaLocked_adopts h.kept h.whole.tidy.memtable hok
  have hlogs := h.logged.holds.crashed h.owned
  rcases hadopts.leaves left hcut with hleft | hleft
  · obtain ⟨t', hopen, hdurable, hresumes⟩ := h.reopens hleft hlogs rfl
    exact ⟨t', hopen, hdurable, .inl hresumes⟩
  · have hdone := h.setSchemaLocked hplan hafter (h.logged.unflushed_of_folded hfolded) hok
    rw [← hadopts.header] at hlogs
    obtain ⟨t', hopen, hdurable, hresumes⟩ := hdone.reopens hleft hlogs rfl
    exact ⟨t', hopen, hdurable, .inr hresumes⟩

/-- Every step keeps a table durable, and does to its columns and rows what the event says. -/
theorem Evolves.durable (h : t.Durable env old fresh) {event : Bag.Shaped.Event (Change τ) RowId (Row ν)}
    (hstep : Evolves env t event t') :
    (∃ old' fresh', t'.Durable env old' fresh') ∧ event.Allows (Change.meaning env) (t.sheet env) (t'.sheet env) := by
  cases hstep with
  | happens hstep =>
      obtain ⟨hdurable, hleads⟩ := hstep.durable h
      exact ⟨hdurable, congrArg TableSchema.schema (hstep.schema h), hleads.allows⟩
  | change hplan hafter hfolded hok =>
      have hnone := h.logged.unflushed_of_folded hfolded
      exact ⟨⟨old, fresh, h.setSchemaLocked hplan hafter hnone hok⟩, h.reshapes hplan hafter hok⟩
  | cutChange hplan hafter hfolded hok hcut hopen =>
      obtain ⟨t₂, hopen', hdurable, hresumes⟩ := h.recovers_change hplan hafter hfolded hok hcut
      obtain rfl := Except.ok.inj (hopen'.symm.trans hopen)
      refine ⟨⟨old, fresh, hdurable⟩, ?_⟩
      rcases hresumes with hbefore | hnow
      · exact .inl (sheet_resumed hbefore)
      · right
        rw [sheet_resumed hnow]
        exact h.reshapes hplan hafter hok

theorem evolved_durable {events : List (Bag.Shaped.Event (Change τ) RowId (Row ν))}
    (hrun : Simulation.Run (IsNew (M := M) env) (Evolves env) events t) : ∃ old fresh, t.Durable env old fresh := by
  apply hrun.invariant
  · intro s hnew
    exact ⟨[], [], hnew.durable.1⟩
  · rintro s event s' ⟨old, fresh, h⟩ hstep
    exact (hstep.durable h).1

/-- A table that has been through any calls, housekeeping, added and renamed columns, and crashes is a sheet that has been
through the same: its columns are those the changes left, and its rows are those that were stored, with a null for each column
that has been added since. -/
theorem sheet_survives {events : List (Bag.Shaped.Event (Change τ) RowId (Row ν))}
    (hrun : Simulation.Run (IsNew (M := M) env) (Evolves env) events t) :
    Simulation.Run (fun sheet => Bag.Empty sheet.store) (Bag.Shaped.Event.Allows (Change.meaning env)) events (t.sheet env) ∧
      (∃ all, scanTable env t.writer.file.io.file t.current = .ok all ∧
        (rowsOf all : Multiset (Row ν)) = (t.held env).map Prod.snd) ∧
      t.current.schema = t.schema.schema ∧ t.current.liveRows = (t.held env).card := by
  obtain ⟨old, fresh, hdurable⟩ := evolved_durable hrun
  refine ⟨?_, ?_, hdurable.whole.tidy.shownSchema, ?_⟩
  · have hinit : ∀ s : Table M, s.IsNew env → ∃ s' : Bag.Shaped (Schema τ) RowId (Row ν), Bag.Empty s'.store ∧
        (∃ old fresh, s.Durable env old fresh) ∧ s.sheet env = s' := by
      intro s hnew
      obtain ⟨hdurable, hnone⟩ := hnew.durable
      exact ⟨s.sheet env, hnone, ⟨[], [], hdurable⟩, rfl⟩
    have hstep : ∀ (s : Table M) event u (s' : Bag.Shaped (Schema τ) RowId (Row ν)),
        (∃ old fresh, s.Durable env old fresh) ∧ s.sheet env = s' → Evolves env s event u →
        ∃ u', event.Allows (Change.meaning env) s' u' ∧ (∃ old fresh, u.Durable env old fresh) ∧ u.sheet env = u' := by
      rintro s event u _ ⟨⟨old, fresh, h⟩, rfl⟩ hstep
      obtain ⟨hdurable', hallows⟩ := hstep.durable h
      exact ⟨_, hallows, hdurable', rfl⟩
    obtain ⟨s, hsheet, -, rfl⟩ := hrun.simulates hinit hstep
    exact hsheet
  · obtain ⟨all, hscan, hrows⟩ := hdurable.scanned
    exact ⟨all, hscan, hrows.trans (map_held env t).symm⟩
  · rw [hdurable.liveRows, ← map_held, Multiset.card_map]

/-- A call that adds or renames a column is a flush, and then the change. -/
theorem change_evolves {events : List (Bag.Shaped.Event (Change τ) RowId (Row ν))}
    (hrun : Simulation.Run (IsNew (M := M) env) (Evolves env) events t) {c : Change τ} {schema : Schema τ}
    (hplan : c.plan env t.schema.schema = .ok (some (schema, false)))
    (hsorts : SortsIn t.schema.clusterColumns (t.writer.memtable.live.map Prod.snd))
    (hfolded : (t.frozen env).isEmpty → t.folded env) (hok : t.change env c = .ok t') :
    Simulation.Run (IsNew (M := M) env) (Evolves env)
      (events ++ [.values .moved] ++ [.values (.done [])] ++ [.change c] ++ [.values (.done [])]) t' := by
  rcases change_ok hok with ⟨hskip, -⟩ | ⟨schema', rewrite, hplan', hset⟩
  · cases hplan.symm.trans hskip
  · obtain ⟨rfl, rfl⟩ := Prod.mk.inj (Option.some.inj (Except.ok.inj (hplan.symm.trans hplan')))
    obtain ⟨⟨rows, t₁⟩, hflush, hset⟩ := bind_eq_ok.mp hset
    obtain ⟨after, hafter, hset⟩ := bind_eq_ok.mp hset
    obtain ⟨t₂, hlocked, hset⟩ := bind_eq_ok.mp hset
    obtain rfl := Except.ok.inj hset
    obtain ⟨old, fresh, h⟩ := evolved_durable hrun
    have hfolded₁ : t₁.folded env := by
      by_cases hempty : (t.frozen env).isEmpty = true
      · obtain ⟨-, rfl⟩ | ⟨pending, f, hsome, -⟩ := flushLocked_ok hflush
        · exact hfolded hempty
        · exact absurd hempty hsome
      · obtain ⟨hdurable, -⟩ := h.committed hempty hflush
        exact hdurable.logged.folded_of_unflushed rfl
    have hplan₁ : c.plan env t₁.pin.schema.schema = .ok (some (schema, false)) := by
      change c.plan env t₁.schema.schema = _
      rw [flushLocked_schema hflush]
      exact hplan
    have hflushed := hrun.step (.happens (.flush hsorts hflush))
    have hpinned := hflushed.step (.happens (.pin t₁))
    have hchanged := hpinned.step (.change hplan₁ hafter hfolded₁ hlocked)
    exact hchanged.step (.happens (.unpin t₂ 0))

section Widened

/-- Two rows, another column, and a crash. -/
def widened : Except Error (PlainTable × PlainTable × PlainTable) := do
  let t₀ ← Table.create crashEnv (Journal plainSizes) plainSchema (fun _ => 0) (fun _ => []) none
  let (_, t₁) ← t₀.insertLocked crashEnv [⟨plainSchema.fields, [[7], [8]]⟩]
  let t₂ ← t₁.change crashEnv (.addColumn ⟨"added", (), true⟩)
  let t₃ ← replayed crashEnv t₂.writer.file.io.file t₂.writer.wal.a.disk t₂.writer.wal.b.disk
  return (t₁, t₂, t₃)

theorem widened_run {t₁ t₂ t₃ : PlainTable} (h : widened = .ok (t₁, t₂, t₃))
    (hunclustered : t₁.schema.clusterColumns = []) (hsome : ¬(t₁.frozen crashEnv).isEmpty) {schema : Schema Unit}
    (hplan : (Change.addColumn ⟨"added", (), true⟩).plan crashEnv t₁.schema.schema = .ok (some (schema, false))) :
    (∃ events, Simulation.Run (IsNew crashEnv) (Evolves crashEnv) events t₂) ∧
      ∃ events, Simulation.Run (IsNew crashEnv) (Evolves crashEnv) events t₃ := by
  obtain ⟨t₀, hcreate, h⟩ := bind_eq_ok.mp h
  obtain ⟨⟨_, u₁⟩, hinsert, h⟩ := bind_eq_ok.mp h
  obtain ⟨u₂, hchange, h⟩ := bind_eq_ok.mp h
  obtain ⟨u₃, hopen, h⟩ := bind_eq_ok.mp h
  cases Except.ok.inj h
  have hstart : Simulation.Run (IsNew crashEnv) (Evolves crashEnv) [] t₀ := .start ⟨_, _, _, hcreate⟩
  have hchanged := change_evolves (hstart.step (.happens (.write (.insert _ hinsert)))) hplan (.inl hunclustered)
    (fun hempty => absurd hempty hsome) hchange
  exact ⟨⟨_, hchanged⟩, _, hchanged.step (.happens (.crash .idle hopen))⟩

/-- The column is there after the crash, and null in both rows. -/
theorem widened_rows_survive : ∃ (t : PlainTable) (events : List (Bag.Shaped.Event (Change Unit) RowId (Row Nat))),
    (Simulation.Run (fun sheet => Bag.Empty sheet.store) (Bag.Shaped.Event.Allows (Change.meaning crashEnv)) events
        (t.sheet crashEnv) ∧
      (∃ all, scanTable crashEnv t.writer.file.io.file t.current = .ok all ∧
        (rowsOf all : Multiset (Row Nat)) = (t.held crashEnv).map Prod.snd) ∧
      t.current.schema = t.schema.schema ∧ t.current.liveRows = (t.held crashEnv).card) ∧
    t.writer.file.committed.manifest.segments.flatMap (t.heldIn crashEnv) =
      [(.segment 0 0, [7, 0]), (.segment 0 1, [8, 0])] := by
  have hcheck : (match widened with
      | .ok (t₁, _, t₃) => decide (t₁.schema.clusterColumns = [] ∧ ¬(t₁.frozen crashEnv).isEmpty ∧
          ((Change.addColumn ⟨"added", (), true⟩).plan crashEnv t₁.schema.schema).toOption =
            some (some (schemaWith t₁.schema.schema (t₁.schema.schema.fields ++ [⟨"added", (), true⟩]), false)) ∧
          t₃.writer.file.committed.manifest.segments.flatMap (t₃.heldIn crashEnv) =
            [(.segment 0 0, [7, 0]), (.segment 0 1, [8, 0])])
      | .error _ => false) = true := by decide +kernel
  cases hrun : widened with
  | error e =>
      rw [hrun] at hcheck
      cases hcheck
  | ok result =>
      obtain ⟨t₁, t₂, t₃⟩ := result
      rw [hrun] at hcheck
      obtain ⟨hunclustered, hsome, hplan, hrows⟩ := of_decide_eq_true hcheck
      obtain ⟨-, events, hsteps⟩ := widened_run hrun hunclustered hsome (toOption_eq_some.mp hplan)
      exact ⟨t₃, events, sheet_survives hsteps, hrows⟩

end Widened

/-- However a table is cut off, inside a change of its columns or anywhere else, opening it gets as far as the flush that may
be due, and a change that was cut off has been made or has not. -/
theorem evolution_opens {events : List (Bag.Shaped.Event (Change τ) RowId (Row ν))}
    (hrun : Simulation.Run (IsNew (M := M) env) (Evolves env) events t) :
    (∀ event left a b, t.Crash env event left a b →
      ∃ t', openTable env left (some a) (some b) = t'.flushIfNeeded env ∧ Evolves env t (.values event) t') ∧
    ∀ (c : Change τ) schema (before after : TableSchema τ) s (t₁ : Table M) left,
      c.plan env t.schema.schema = .ok (some (schema, false)) → TableSchema.new env schema = .ok after → t.folded env →
      t.setSchemaLocked env before after false s = .ok t₁ → t.CutShort t₁ left →
      ∃ t', openTable env left (some t.writer.wal.a.disk) (some t.writer.wal.b.disk) = t'.flushIfNeeded env ∧
        Evolves env t (.cutChange c) t' ∧ (t.Resumes env t' ∨ t₁.Resumes env t') := by
  obtain ⟨old, fresh, h⟩ := evolved_durable hrun
  constructor
  · intro event left a b hcrash
    obtain ⟨t', -, -, hopen, -, -, -⟩ := hcrash.recovers h
    refine ⟨t', ?_, .happens (.crash hcrash hopen)⟩
    rw [openTable_eq, hopen]
    rfl
  · intro c schema before after s t₁ left hplan hafter hfolded hok hcut
    obtain ⟨t', hopen, -, hresumes⟩ := h.recovers_change hplan hafter hfolded hok hcut
    refine ⟨t', ?_, .cutChange hplan hafter hfolded hok hcut hopen, hresumes⟩
    rw [openTable_eq, hopen]
    rfl

section Cut

/-- The columns there are to be once the new one has another name. -/
def renamedSchema : Schema Unit := ⟨[⟨"v", (), false⟩, ⟨"extra", (), true⟩], []⟩

/-- A change of name, after the new column is there. -/
def renameColumns : Except Error (PlainTable × PlainTable × TableSchema Unit × PlainTable) := do
  let (t₁, t₂, _) ← widened
  let after ← TableSchema.new crashEnv renamedSchema
  let t₃ ← t₂.setSchemaLocked crashEnv t₂.schema after false t₂.current
  return (t₁, t₂, after, t₃)

/-- A change of name that a crash cuts off before it has written anything. -/
theorem cut_off_rename_opens : ∃ t t₁ t' : PlainTable,
    openTable crashEnv t.writer.file.io.file (some t.writer.wal.a.disk) (some t.writer.wal.b.disk) =
        t'.flushIfNeeded crashEnv ∧
      Evolves crashEnv t (.cutChange (.renameColumn "added" "extra")) t' ∧ (t.Resumes crashEnv t' ∨ t₁.Resumes crashEnv t') := by
  have hcheck : (match renameColumns with
      | .ok (t₁, t₂, _, _) => decide (t₁.schema.clusterColumns = [] ∧ ¬(t₁.frozen crashEnv).isEmpty ∧
          ((Change.addColumn ⟨"added", (), true⟩).plan crashEnv t₁.schema.schema).toOption =
            some (some (schemaWith t₁.schema.schema (t₁.schema.schema.fields ++ [⟨"added", (), true⟩]), false)) ∧
          ((Change.renameColumn "added" "extra").plan crashEnv t₂.schema.schema).toOption =
            some (some (renamedSchema, false)) ∧ t₂.folded crashEnv)
      | .error _ => false) = true := by decide +kernel
  cases hrun : renameColumns with
  | error e =>
      rw [hrun] at hcheck
      cases hcheck
  | ok result =>
      obtain ⟨t₁, t₂, after, t₃⟩ := result
      rw [hrun] at hcheck
      obtain ⟨hunclustered, hsome, hplan, hrename, hfolded⟩ := of_decide_eq_true hcheck
      obtain ⟨⟨u₁, u₂, u₃⟩, hwidened, h⟩ := bind_eq_ok.mp hrun
      obtain ⟨after', hafter, h⟩ := bind_eq_ok.mp h
      obtain ⟨u₄, hset, h⟩ := bind_eq_ok.mp h
      cases Except.ok.inj h
      obtain ⟨⟨events, hsteps⟩, -⟩ := widened_run hwidened hunclustered hsome (toOption_eq_some.mp hplan)
      obtain ⟨t', hopen, hevolves, hresumes⟩ := (evolution_opens hsteps).2 _ _ _ _ _ _ _ (toOption_eq_some.mp hrename) hafter
        hfolded hset ⟨.stop _ _, fun _ h => .inl h⟩
      exact ⟨t₂, t₃, t', hopen, hevolves, hresumes⟩

end Cut

/-- Whatever has happened to a table, no byte of its file is in two places: the schemas, the manifests of both slots, the
segments, the bitmaps and the free extents are apart and in the file, and all that is listed can be read. -/
theorem space_survives {events : List (Bag.Shaped.Event (Change τ) RowId (Row ν))}
    (hrun : Simulation.Run (IsNew (M := M) env) (Evolves env) events t) :
    (∀ byte, Extent.coverAt (t.writer.file.space ++ t.writer.file.committed.manifest.refs ++
        t.writer.file.committed.manifest.freed) byte ≤ 1) ∧
      (∀ e ∈ t.writer.file.space ++ t.writer.file.committed.manifest.refs ++ t.writer.file.committed.manifest.freed,
        0 < e.len → dataStart ≤ e.offset ∧ e.stop ≤ t.writer.file.io.len) ∧
      (∀ entry ∈ t.writer.file.committed.manifest.segments, ∃ data rows,
        segmentReader t.writer.file.io.file entry t.schema.layout = .ok data ∧ data.rows.length = entry.rowCount ∧
          loadDeletes t.writer.file.io.file entry = .ok rows ∧
          rows ⊆ (t.writer.deletes entry.segmentId).getD ∅ ∧
          (entry.segmentId ∉ t.writer.dirtyDeletes → (t.writer.deletes entry.segmentId).getD ∅ = rows)) ∧
      readSchema t.writer.file.io.file (schemaExtent t.writer.file.header t.writer.file.committed.manifest) =
        .ok t.schema.schema := by
  obtain ⟨old, fresh, h⟩ := evolved_durable hrun
  have hsettled := h.kept.sound.settled
  refine ⟨?_, ?_, ?_, h.schema⟩
  · intro byte
    rw [Extent.coverAt_append]
    exact hsettled.accounted.once byte
  · intro e he hpos
    have hbounds := hsettled.accounted.bounds ((List.mem_append.mp he).imp id id) hpos
    exact ⟨hbounds.1, hbounds.2.trans hsettled.inFile⟩
  · intro entry hentry
    obtain ⟨data, hdata, hlength⟩ := h.opens hentry
    obtain ⟨rows, hrows, hsub, hclean⟩ := h.saved entry hentry
    exact ⟨data, rows, hdata, hlength, hrows, hsub, hclean⟩

/-- The segment of the two rows, after a flush, a column more and a crash. -/
theorem flushed_segment_stands : ∃ t : PlainTable,
    ((∀ byte, Extent.coverAt (t.writer.file.space ++ t.writer.file.committed.manifest.refs ++
        t.writer.file.committed.manifest.freed) byte ≤ 1) ∧
      (∀ e ∈ t.writer.file.space ++ t.writer.file.committed.manifest.refs ++ t.writer.file.committed.manifest.freed,
        0 < e.len → dataStart ≤ e.offset ∧ e.stop ≤ t.writer.file.io.len) ∧
      (∀ entry ∈ t.writer.file.committed.manifest.segments, ∃ data rows,
        segmentReader t.writer.file.io.file entry t.schema.layout = .ok data ∧ data.rows.length = entry.rowCount ∧
          loadDeletes t.writer.file.io.file entry = .ok rows ∧
          rows ⊆ (t.writer.deletes entry.segmentId).getD ∅ ∧
          (entry.segmentId ∉ t.writer.dirtyDeletes → (t.writer.deletes entry.segmentId).getD ∅ = rows)) ∧
      readSchema t.writer.file.io.file (schemaExtent t.writer.file.header t.writer.file.committed.manifest) =
        .ok t.schema.schema) ∧
    t.writer.file.committed.manifest.segments.map SegmentEntry.rowCount = [2] := by
  have hcheck : (match widened with
      | .ok (t₁, _, t₃) => decide (t₁.schema.clusterColumns = [] ∧ ¬(t₁.frozen crashEnv).isEmpty ∧
          ((Change.addColumn ⟨"added", (), true⟩).plan crashEnv t₁.schema.schema).toOption =
            some (some (schemaWith t₁.schema.schema (t₁.schema.schema.fields ++ [⟨"added", (), true⟩]), false)) ∧
          t₃.writer.file.committed.manifest.segments.map SegmentEntry.rowCount = [2])
      | .error _ => false) = true := by decide +kernel
  cases hrun : widened with
  | error e =>
      rw [hrun] at hcheck
      cases hcheck
  | ok result =>
      obtain ⟨t₁, t₂, t₃⟩ := result
      rw [hrun] at hcheck
      obtain ⟨hunclustered, hsome, hplan, hsegments⟩ := of_decide_eq_true hcheck
      obtain ⟨-, events, hsteps⟩ := widened_run hrun hunclustered hsome (toOption_eq_some.mp hplan)
      exact ⟨t₃, space_survives hsteps, hsegments⟩

end Runs

end Table

end LocalTables
