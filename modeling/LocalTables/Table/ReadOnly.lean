import LocalTables.Table.Faults
import LocalTables.Table.Log
import LocalTables.Wal.Rotate

/-! A handle opened with `read_only` (`config.rs`). The flag reaches the backend of the table file, which refuses every write
(`io/std_file.rs`). It does not reach the logs: opening creates a log that is missing, recovery cuts a torn tail off, and an
insert, a delete, an update and a flush write to them as they do on any other handle. -/

namespace LocalTables

variable {τ ν : Type} {M : Media τ ν}

/-- What a backend opened read-only makes of a request. A sync is skipped. -/
def IoOp.rejectWrites : IoOp τ ν → Except Error Unit
  | .setLen _ => .error (.invalidArgument "the path is open read-only")
  | .write _ _ => .error (.invalidArgument "the path is open read-only")
  | .sync => .ok ()

/-- What can happen to the table file under a read-only backend: it lets the requests through that it does not reject. -/
def FileIo.ReadOnly (io io' : FileIo M) : Prop :=
  ∃ ops, FileIo.Issued io ops io' ∧ ∀ op ∈ ops, op.rejectWrites = .ok ()

theorem applyAll_of_not_rejected (file : M.File) {ops : List (IoOp τ ν)} (h : ∀ op ∈ ops, op.rejectWrites = .ok ()) :
    M.applyAll file ops = file := by
  induction ops with
  | nil => rfl
  | cons op ops ih =>
      have hop := h op List.mem_cons_self
      have hrest := ih fun other hother => h other (List.mem_cons_of_mem _ hother)
      cases op with
      | setLen n => cases hop
      | write offset blob => cases hop
      | sync => exact hrest

theorem FileIo.ReadOnly.refl (io : FileIo M) : FileIo.ReadOnly io io := ⟨[], .refl io, by simp⟩

theorem FileIo.ReadOnly.file_eq {io io' : FileIo M} (h : FileIo.ReadOnly io io') : io'.file = io.file := by
  obtain ⟨ops, hissued, hops⟩ := h
  rw [hissued.2, applyAll_of_not_rejected io.file hops]

/-- The files of a table. A log may be missing. -/
structure Disk (M : Media τ ν) where
  file : M.File
  a : Option Bytes
  b : Option Bytes

/-- An open handle. `headA` and `headB` are the bytes the logs start with: a header is read back as less than its bytes. -/
structure Handle (M : Media τ ν) where
  table : Table M
  headA : Bytes
  headB : Bytes

def Handle.disk (h : Handle M) : Disk M where
  file := h.table.writer.file.io.file
  a := some (h.headA ++ h.table.writer.wal.a.disk.bytes)
  b := some (h.headB ++ h.table.writer.wal.b.disk.bytes)

namespace Table

section Fails

variable [DecidableEq τ] (env : Env τ ν)

/-- An insert fails. LSNs that were taken stay taken; a log that could not be written is left in any state. -/
inductive InsertFails (t : Table M) (batches : List (RecordBatch τ ν)) : Table M → Prop where
  | fields {e : Error} (hrows : totalRows batches ≠ 0) (h : t.checkFields batches = .error e) : InsertFails t batches t
  | encode {e : Error} {taken : Nat} (hrows : totalRows batches ≠ 0) (hfields : t.checkFields batches = .ok ())
      (h : (planInserts t.writer.nextLsn t.writer.memtable.nextSeqno batches).1.mapM (encodeRecord env) = .error e)
      (htaken : taken ≤ (planInserts t.writer.nextLsn t.writer.memtable.nextSeqno batches).1.length) :
      InsertFails t batches (t.withWriter { t.writer with nextLsn := t.writer.nextLsn + taken })
  | append {frames : List Bytes} (wal : WalPair) (hrows : totalRows batches ≠ 0)
      (hfields : t.checkFields batches = .ok ())
      (h : (planInserts t.writer.nextLsn t.writer.memtable.nextSeqno batches).1.mapM (encodeRecord env) = .ok frames) :
      InsertFails t batches (t.withWriter { t.writer with
        wal := wal
        nextLsn := t.writer.nextLsn +
          (planInserts t.writer.nextLsn t.writer.memtable.nextSeqno batches).1.length })
  | flush {rows : Nat} {t₁ t' : Table M} (hinsert : t.insertLocked env batches = .ok (rows, t₁)) (hrows : rows ≠ 0)
      (hlimits : t₁.shouldFlush env) (h : FlushFails env t₁ t') : InsertFails t batches t'

/-- A delete fails. -/
inductive DeleteFails (t : Table M) (segmentDeletions : List (SegmentId × List Nat)) (memtableSeqnos : List Nat) :
    Table M → Prop where
  | plan {e : Error} (hsome : ¬(segmentDeletions.isEmpty ∧ memtableSeqnos.isEmpty))
      (h : planDeletes t.writer segmentDeletions memtableSeqnos = .error e) :
      DeleteFails t segmentDeletions memtableSeqnos t
  | encode {planned : PlannedDeletes} {e : Error} (hsome : ¬(segmentDeletions.isEmpty ∧ memtableSeqnos.isEmpty))
      (hplanned : planDeletes t.writer segmentDeletions memtableSeqnos = .ok planned) (hdeletes : ¬planned.isEmpty)
      (h : encodeRecord env (.delete t.writer.nextLsn planned.loggedSegments planned.memtable) = .error e) :
      DeleteFails t segmentDeletions memtableSeqnos (t.withWriter { t.writer with nextLsn := t.writer.nextLsn + 1 })
  | append {planned : PlannedDeletes} {frame : Bytes} (wal : WalPair)
      (hsome : ¬(segmentDeletions.isEmpty ∧ memtableSeqnos.isEmpty))
      (hplanned : planDeletes t.writer segmentDeletions memtableSeqnos = .ok planned) (hdeletes : ¬planned.isEmpty)
      (h : encodeRecord env (.delete t.writer.nextLsn planned.loggedSegments planned.memtable) = .ok frame) :
      DeleteFails t segmentDeletions memtableSeqnos
        (t.withWriter { t.writer with wal := wal, nextLsn := t.writer.nextLsn + 1 })

/-- What an update logs once its parts are worked out. -/
def updateRecord (t : Table M) (planned : PlannedDeletes) (merged : Option (RecordBatch τ ν)) : WalRecord τ ν :=
  .update t.writer.nextLsn planned.loggedSegments planned.memtable t.writer.memtable.nextSeqno
    (encodeBatch (merged.getD ⟨t.schema.schema.fields, []⟩))

/-- An update names something, and its replacements have the fields of the table. -/
structure Updates (t : Table M) (segmentDeletions : List (SegmentId × List Nat)) (memtableSeqnos : List Nat)
    (replacements : List (RecordBatch τ ν)) : Prop where
  some : ¬(segmentDeletions.isEmpty ∧ memtableSeqnos.isEmpty ∧ totalRows replacements = 0)
  fields : t.checkFields replacements = .ok ()

/-- An update fails. -/
inductive UpdateFails (t : Table M) (segmentDeletions : List (SegmentId × List Nat)) (memtableSeqnos : List Nat)
    (replacements : List (RecordBatch τ ν)) : Table M → Prop where
  | fields {e : Error}
      (hsome : ¬(segmentDeletions.isEmpty ∧ memtableSeqnos.isEmpty ∧ totalRows replacements = 0))
      (h : t.checkFields replacements = .error e) : UpdateFails t segmentDeletions memtableSeqnos replacements t
  | plan {e : Error} (hupdates : t.Updates segmentDeletions memtableSeqnos replacements)
      (h : planDeletes t.writer segmentDeletions memtableSeqnos = .error e) :
      UpdateFails t segmentDeletions memtableSeqnos replacements t
  | merge {planned : PlannedDeletes} {e : Error} (hupdates : t.Updates segmentDeletions memtableSeqnos replacements)
      (hplanned : planDeletes t.writer segmentDeletions memtableSeqnos = .ok planned)
      (hrecord : ¬(planned.isEmpty ∧ totalRows replacements = 0)) (h : t.mergeReplacements replacements = .error e) :
      UpdateFails t segmentDeletions memtableSeqnos replacements t
  | encode {planned : PlannedDeletes} {merged : Option (RecordBatch τ ν)} {e : Error}
      (hupdates : t.Updates segmentDeletions memtableSeqnos replacements)
      (hplanned : planDeletes t.writer segmentDeletions memtableSeqnos = .ok planned)
      (hrecord : ¬(planned.isEmpty ∧ totalRows replacements = 0))
      (hmerged : t.mergeReplacements replacements = .ok merged)
      (h : encodeRecord env (t.updateRecord planned merged) = .error e) :
      UpdateFails t segmentDeletions memtableSeqnos replacements
        (t.withWriter { t.writer with nextLsn := t.writer.nextLsn + 1 })
  | append {planned : PlannedDeletes} {merged : Option (RecordBatch τ ν)} {frame : Bytes} (wal : WalPair)
      (hupdates : t.Updates segmentDeletions memtableSeqnos replacements)
      (hplanned : planDeletes t.writer segmentDeletions memtableSeqnos = .ok planned)
      (hrecord : ¬(planned.isEmpty ∧ totalRows replacements = 0))
      (hmerged : t.mergeReplacements replacements = .ok merged)
      (h : encodeRecord env (t.updateRecord planned merged) = .ok frame) :
      UpdateFails t segmentDeletions memtableSeqnos replacements
        (t.withWriter { t.writer with wal := wal, nextLsn := t.writer.nextLsn + 1 })
  | flush {rows : Nat} {t₁ t' : Table M}
      (hupdate : t.updateLocked env segmentDeletions memtableSeqnos replacements = .ok (rows, t₁))
      (hchanged : t₁.writer.nextLsn ≠ t.writer.nextLsn) (hlimits : t₁.shouldFlush env) (h : FlushFails env t₁ t') :
      UpdateFails t segmentDeletions memtableSeqnos replacements t'

/-- A run of a compaction fails: its rows are not read, or its locked half fails. -/
inductive CompactRunFails (t : Table M) (ids : List SegmentId) : Table M → Prop where
  | read (hsome : ¬ids.isEmpty) : CompactRunFails t ids t
  | locked {rewrite : Rewrite τ ν} {retired : List SegmentId} {t' : Table M} (hsome : ¬ids.isEmpty)
      (hread : t.pin.compactRead env ids = .ok rewrite) (h : CompactFails env t.pin rewrite retired t') :
      CompactRunFails t ids t'.unpinFirst

/-- A compaction fails: it cannot be cut into runs, or one of the runs fails. -/
inductive CompactSegmentsFails (t : Table M) (ids : List SegmentId) : Table M → Prop where
  | runs {e : Error} (hsome : ¬ids.isEmpty) (h : runs env t.pin.current ids = .error e) : CompactSegmentsFails t ids t
  | run {cut : List (List SegmentId)} {t' : Table M} (hsome : ¬ids.isEmpty)
      (hcut : Table.runs env t.pin.current ids = .ok cut)
      (h : FoldFails (fun (done : Nat × Table M) run => do
          let (more, t) ← compactRun env done.2 run
          return (done.1 + more, t)) (fun done run => CompactRunFails env done.2 run) (0, t.pin) cut t') :
      CompactSegmentsFails t ids t'.unpinFirst

/-- A schema change fails: it is refused, or it is not committed. -/
inductive ChangeFails (t : Table M) (c : Change τ) : Table M → Prop where
  | plan {e : Error} (h : c.plan env t.schema.schema = .error e) : ChangeFails t c t
  | set {schema : Schema τ} {rewrite : Bool} {retired : List SegmentId} {t' : Table M}
      (hplan : c.plan env t.schema.schema = .ok (some (schema, rewrite)))
      (h : SetSchemaFails env t schema rewrite retired t') : ChangeFails t c t'

end Fails

/-- The writer of a table that is being opened, before the logs are replayed. -/
def openWriter (file : TableFile M) (deletes : SegmentId → Option (Finset Nat)) (wal : WalPair) : Writer M where
  file := file
  wal := wal
  memtable := Memtable.new file.schema file.committed.manifest.nextSeqno
  deletes := deletes
  dirtyDeletes := []
  nextLsn := file.committed.metaPage.checkpointLsn + 1

end Table

/-- A call on an open handle. -/
inductive Call (τ ν : Type) where
  | snapshot
  | dropSnapshot (index : Nat)
  | scan
  | insert (batches : List (RecordBatch τ ν))
  | delete (segmentDeletions : List (SegmentId × List Nat)) (memtableSeqnos : List Nat)
  | update (segmentDeletions : List (SegmentId × List Nat)) (memtableSeqnos : List Nat)
      (replacements : List (RecordBatch τ ν))
  | flush
  | compactSegments (ids : List SegmentId)
  | deleteSegments (segmentIds : List SegmentId)
  | change (c : Change τ)

namespace Call

variable [DecidableEq τ] (env : Env τ ν) (t : Table M)

/-- The call returns, and leaves this table. -/
def Returns (t' : Table M) : Call τ ν → Prop
  | snapshot => t' = t.pin
  | dropSnapshot index => t' = t.unpin index
  | scan => t' = t
  | insert batches => ∃ rows, t.insert env batches = .ok (rows, t')
  | delete segmentDeletions memtableSeqnos => ∃ deleted, t.delete env segmentDeletions memtableSeqnos = .ok (deleted, t')
  | update segmentDeletions memtableSeqnos replacements =>
      ∃ rows, t.update env segmentDeletions memtableSeqnos replacements = .ok (rows, t')
  | flush => ∃ rows, t.flushLocked env = .ok (rows, t')
  | compactSegments ids => ∃ rows, t.compactSegments env ids = .ok (rows, t')
  | deleteSegments segmentIds => ∃ deleted, t.deleteSegments segmentIds = .ok (deleted, t')
  | change c => t.change env c = .ok t'

/-- The call fails, and leaves this table. Taking and dropping a snapshot cannot fail. -/
def Fails (t' : Table M) : Call τ ν → Prop
  | snapshot => False
  | dropSnapshot _ => False
  | scan => t' = t
  | insert batches => Table.InsertFails env t batches t'
  | delete segmentDeletions memtableSeqnos => Table.DeleteFails env t segmentDeletions memtableSeqnos t'
  | update segmentDeletions memtableSeqnos replacements =>
      Table.UpdateFails env t segmentDeletions memtableSeqnos replacements t'
  | flush => Table.FlushFails env t t'
  | compactSegments ids => Table.CompactSegmentsFails env t ids t'
  | deleteSegments segmentIds => ∃ retired, Table.DeleteSegmentsFails t segmentIds retired t'
  | change c => Table.ChangeFails env t c t'

/-- The frames the call appends to the log, once it has checked its arguments and worked out what to log. -/
def frames : Call τ ν → Except Error (List Bytes)
  | insert batches =>
      if totalRows batches = 0 then .ok []
      else do
        t.checkFields batches
        (Table.planInserts t.writer.nextLsn t.writer.memtable.nextSeqno batches).1.mapM (encodeRecord env)
  | delete segmentDeletions memtableSeqnos =>
      if segmentDeletions.isEmpty ∧ memtableSeqnos.isEmpty then .ok []
      else do
        let planned ← planDeletes t.writer segmentDeletions memtableSeqnos
        if planned.isEmpty then
          return []
        else
          let frame ← encodeRecord env (.delete t.writer.nextLsn planned.loggedSegments planned.memtable)
          return [frame]
  | update segmentDeletions memtableSeqnos replacements =>
      if segmentDeletions.isEmpty ∧ memtableSeqnos.isEmpty ∧ totalRows replacements = 0 then .ok []
      else do
        t.checkFields replacements
        let planned ← planDeletes t.writer segmentDeletions memtableSeqnos
        if planned.isEmpty ∧ totalRows replacements = 0 then
          return []
        else
          let merged ← t.mergeReplacements replacements
          let frame ← encodeRecord env (t.updateRecord planned merged)
          return [frame]
  | _ => .ok []

/-- The call flushes a table that holds rows or deletions no commit has yet. -/
def Flushes : Call τ ν → Prop
  | flush => ¬(t.frozen env).isEmpty
  | change c =>
      ¬(t.frozen env).isEmpty ∧ ∃ schema rewrite, c.plan env t.schema.schema = .ok (some (schema, rewrite))
  | _ => False

/-- The call appends nothing to a log and rotates none. -/
def Quiet (call : Call τ ν) : Prop :=
  (∀ frames, call.frames env t = .ok frames → frames = []) ∧ ¬call.Flushes env t

end Call

namespace Handle

/-- The bytes a log starts with: those of its header once it has a new one. -/
def nextHead (checksum : Bytes → UInt64) (head : Bytes) (before after : LogFile) : Bytes :=
  if after.header = before.header then head else after.header.encode checksum

/-- A log that a failed call has left alone starts as it did. -/
def HeadKept (head head' : Bytes) (before after : LogFile) : Prop := after = before → head' = head

variable [DecidableEq τ] (env : Env τ ν)

/-- A call returns on a read-only handle: its backend has rejected nothing. -/
structure Returns (call : Call τ ν) (h h' : Handle M) : Prop where
  call : call.Returns env h.table h'.table
  file : FileIo.ReadOnly h.table.writer.file.io h'.table.writer.file.io
  headA : h'.headA = nextHead env.checksum h.headA h.table.writer.wal.a.disk h'.table.writer.wal.a.disk
  headB : h'.headB = nextHead env.checksum h.headB h.table.writer.wal.b.disk h'.table.writer.wal.b.disk

/-- A call fails on a read-only handle: perhaps because a request was rejected, perhaps for another reason. -/
structure Fails (call : Call τ ν) (h h' : Handle M) : Prop where
  call : call.Fails env h.table h'.table
  file : FileIo.ReadOnly h.table.writer.file.io h'.table.writer.file.io
  headA : HeadKept h.headA h'.headA h.table.writer.wal.a.disk h'.table.writer.wal.a.disk
  headB : HeadKept h.headB h'.headB h.table.writer.wal.b.disk h'.table.writer.wal.b.disk

end Handle

/-- The files of a table, and the handle if one is open. -/
inductive Access (M : Media τ ν) where
  | closed (disk : Disk M)
  | opened (handle : Handle M)

def Access.disk : Access M → Disk M
  | closed disk => disk
  | opened handle => handle.disk

section Open

/-- The bytes of a log once it is open: a missing one has been created. -/
def openedLog (checksum : Bytes → UInt64) (uuid : List UInt8) (log : Option Bytes) : Bytes :=
  log.getD (WalHeader.encode checksum ⟨0, uuid⟩)

def logHead (checksum : Bytes → UInt64) (uuid : List UInt8) (log : Option Bytes) : Bytes :=
  (openedLog checksum uuid log).take walHeaderLen

/-- What is left of the logs when an open fails at one of them or in the replay: where the first is being created, before the
second is open, where the second is being created, before the first is recovered, before the second is, and after both. -/
inductive LogsLeft (env : Env τ ν) (uuid : List UInt8) (a b : Option Bytes) : Option Bytes → Option Bytes → Prop where
  | createA (ha : a = none) (left : Option Bytes) : LogsLeft env uuid a b left b
  | openB {fa : WalFile} (ha : WalPair.openRawOne env.checksum a uuid = .ok fa) :
      LogsLeft env uuid a b (some (openedLog env.checksum uuid a)) b
  | createB {fa : WalFile} (ha : WalPair.openRawOne env.checksum a uuid = .ok fa) (hb : b = none) (left : Option Bytes) :
      LogsLeft env uuid a b (some (openedLog env.checksum uuid a)) left
  | recoverA {fa fb : WalFile} (ha : WalPair.openRawOne env.checksum a uuid = .ok fa)
      (hb : WalPair.openRawOne env.checksum b uuid = .ok fb) :
      LogsLeft env uuid a b (some (openedLog env.checksum uuid a)) (some (openedLog env.checksum uuid b))
  | recoverB {fa fb fa' : WalFile} {logA : RecoveredLog τ ν} (ha : WalPair.openRawOne env.checksum a uuid = .ok fa)
      (hb : WalPair.openRawOne env.checksum b uuid = .ok fb) (hrecoverA : fa.recover env = .ok (logA, fa')) :
      LogsLeft env uuid a b (some (logHead env.checksum uuid a ++ fa'.disk.bytes))
        (some (openedLog env.checksum uuid b))
  | replay {fa fb fa' fb' : WalFile} {logA logB : RecoveredLog τ ν}
      (ha : WalPair.openRawOne env.checksum a uuid = .ok fa) (hb : WalPair.openRawOne env.checksum b uuid = .ok fb)
      (hrecoverA : fa.recover env = .ok (logA, fa')) (hrecoverB : fb.recover env = .ok (logB, fb')) :
      LogsLeft env uuid a b (some (logHead env.checksum uuid a ++ fa'.disk.bytes))
        (some (logHead env.checksum uuid b ++ fb'.disk.bytes))

/-- Both logs are there and end with a whole record, as far as an open gets to them. -/
def LogsWhole (env : Env τ ν) (uuid : List UInt8) (a b : Option Bytes) : Prop :=
  a ≠ none ∧ ∀ fa, WalPair.openRawOne env.checksum a uuid = .ok fa →
    b ≠ none ∧ ∀ fb, WalPair.openRawOne env.checksum b uuid = .ok fb →
      ∀ logA fa', fa.recover env = .ok (logA, fa') → logA.truncated = false ∧
        ∀ logB fb', fb.recover env = .ok (logB, fb') → logB.truncated = false

variable [DecidableEq τ] (env : Env τ ν)

/-- What an open reads of the table file before it comes to the logs. -/
def Disk.read (disk : Disk M) : Except Error (TableFile M × TableSchema τ × (SegmentId → Option (Finset Nat))) := do
  let file ← TableFile.openFile disk.file .columnar
  let schema ← TableSchema.new env file.schema
  let deletes ← Table.loadAllDeletes file.io.file file.committed.manifest
  return (file, schema, deletes)

/-- The handle once the logs are replayed. -/
def Disk.replayed (disk : Disk M) : Except Error (Handle M) := do
  let (file, schema, deletes) ← disk.read env
  let wal ← WalPair.openRaw env.checksum disk.a disk.b file.header.tableUuid
  let w ← replay env (Table.openWriter file deletes wal) file.committed.metaPage.checkpointLsn
  return {
    table := ⟨w, w.snapshot schema, [], schema⟩
    headA := logHead env.checksum file.header.tableUuid disk.a
    headB := logHead env.checksum file.header.tableUuid disk.b }

/-- Opening a table read-only: it fails before it comes to the logs, or at them, or the handle is there, or what was replayed
is more than the log should hold and is flushed. -/
inductive Opens (disk : Disk M) : Access M → Prop where
  | fails : Opens disk (.closed disk)
  | logs {file : TableFile M} {schema : TableSchema τ} {deletes : SegmentId → Option (Finset Nat)} {a b : Option Bytes}
      (hread : disk.read env = .ok (file, schema, deletes)) (h : LogsLeft env file.header.tableUuid disk.a disk.b a b) :
      Opens disk (.closed ⟨disk.file, a, b⟩)
  | opened {h : Handle M} (hreplayed : disk.replayed env = .ok h) (hlimits : ¬h.table.shouldFlush env) : Opens disk (.opened h)
  | flushed {h h' : Handle M} (hreplayed : disk.replayed env = .ok h) (hlimits : h.table.shouldFlush env)
      (hcall : h.Returns env .flush h') : Opens disk (.opened h')
  | flushFails {h h' : Handle M} (hreplayed : disk.replayed env = .ok h) (hlimits : h.table.shouldFlush env)
      (hcall : h.Fails env .flush h') : Opens disk (.closed h'.disk)

/-- Opening these files creates no log, cuts none and has nothing to flush. -/
def OpensQuietly (disk : Disk M) : Prop :=
  (∀ file schema deletes, disk.read env = .ok (file, schema, deletes) → LogsWhole env file.header.tableUuid disk.a disk.b) ∧
    ∀ h, disk.replayed env = .ok h → h.table.shouldFlush env → (h.table.frozen env).isEmpty

/-- What a program does with a table it wants to read. -/
inductive Action (τ ν : Type) where
  | openTable
  | close
  | call (call : Call τ ν)

/-- One action on a table that is only ever opened read-only, and what it leaves. -/
inductive ReadOnlyStep : Access M → Action τ ν → Access M → Prop where
  | openTable {disk : Disk M} {s : Access M} (h : Opens env disk s) : ReadOnlyStep (.closed disk) .openTable s
  | close (h : Handle M) : ReadOnlyStep (.opened h) .close (.closed h.disk)
  | returns {h h' : Handle M} (call : Call τ ν) (hcall : h.Returns env call h') :
      ReadOnlyStep (.opened h) (.call call) (.opened h')
  | fails {h h' : Handle M} (call : Call τ ν) (hcall : h.Fails env call h') :
      ReadOnlyStep (.opened h) (.call call) (.opened h')

/-- The action has no reason to write to a log. -/
def Action.Quiet : Access M → Action τ ν → Prop
  | .closed disk, openTable => OpensQuietly env disk
  | .opened h, call c => c.Quiet env h.table
  | _, _ => True

end Open

section Appends

variable [DecidableEq τ] {env : Env τ ν} {t t' : Table M}

omit [DecidableEq τ] in
theorem planInserts_ne_nil {lsn seqno : Nat} {batches : List (RecordBatch τ ν)} (h : totalRows batches ≠ 0) :
    (Table.planInserts lsn seqno batches).1 ≠ [] := by
  induction batches generalizing lsn seqno with
  | nil => exact absurd rfl h
  | cons batch batches ih =>
      by_cases hbatch : batch.numRows = 0
      · rw [Table.planInserts, if_pos hbatch]
        refine ih fun hzero => h ?_
        rw [totalRows, List.map_cons, List.sum_cons, hbatch, Nat.zero_add]
        exact hzero
      · rw [Table.planInserts, if_neg hbatch]
        exact List.cons_ne_nil _ _

omit [DecidableEq τ] in
theorem mapM_ne_nil {frames : List Bytes} {records : List (WalRecord τ ν)} (hsome : records ≠ [])
    (h : records.mapM (encodeRecord env) = .ok frames) : frames ≠ [] := by
  cases records with
  | nil => exact absurd rfl hsome
  | cons record records =>
      rw [List.mapM_cons] at h
      obtain ⟨frame, -, h⟩ := bind_eq_ok.mp h
      obtain ⟨rest, -, h⟩ := bind_eq_ok.mp h
      obtain rfl := Except.ok.inj h
      exact List.cons_ne_nil _ _

/-- An insert that has rows and passes the checks appends. -/
theorem insertLocked_frames {batches : List (RecordBatch τ ν)} {rows : Nat}
    (h : t.insertLocked env batches = .ok (rows, t')) :
    rows = 0 ∧ t' = t ∨ ∃ frames, (Call.insert batches).frames env t = .ok frames ∧ frames ≠ [] := by
  unfold Table.insertLocked at h
  dsimp only at h
  split at h
  · obtain ⟨rfl, rfl⟩ := Prod.mk.inj (Except.ok.inj h)
    exact .inl ⟨rfl, rfl⟩
  · next hrows =>
      obtain ⟨_, hfields, h⟩ := bind_eq_ok.mp h
      obtain ⟨t₁, happend, -⟩ := bind_eq_ok.mp h
      obtain ⟨frames, wal, hframes, -, -⟩ := Table.appendRows_ok happend
      refine .inr ⟨frames, ?_, mapM_ne_nil (planInserts_ne_nil hrows) hframes⟩
      rw [Call.frames, if_neg hrows, hfields]
      exact hframes

theorem delete_frames {segmentDeletions : List (SegmentId × List Nat)} {memtableSeqnos : List Nat} {deleted : Nat}
    (h : t.delete env segmentDeletions memtableSeqnos = .ok (deleted, t')) :
    t' = t ∨ ∃ frame, (Call.delete segmentDeletions memtableSeqnos).frames env t = .ok [frame] := by
  unfold Table.delete at h
  dsimp only at h
  split at h
  · exact .inl (Prod.mk.inj (Except.ok.inj h)).2.symm
  · next hsome =>
      obtain ⟨planned, hplanned, h⟩ := bind_eq_ok.mp h
      split at h
      · exact .inl (Prod.mk.inj (Except.ok.inj h)).2.symm
      · next hdeletes =>
          obtain ⟨frame, hframe, -⟩ := bind_eq_ok.mp h
          refine .inr ⟨frame, ?_⟩
          simp only [Call.frames, if_neg hsome, hplanned, hframe, if_neg hdeletes, bind, Except.bind, pure, Except.pure]

/-- An update that names a live row or has a replacement appends. -/
theorem updateLocked_frames {segmentDeletions : List (SegmentId × List Nat)} {memtableSeqnos : List Nat}
    {replacements : List (RecordBatch τ ν)} {rows : Nat}
    (h : t.updateLocked env segmentDeletions memtableSeqnos replacements = .ok (rows, t')) :
    t' = t ∨ ∃ frame, (Call.update segmentDeletions memtableSeqnos replacements).frames env t = .ok [frame] := by
  unfold Table.updateLocked at h
  dsimp only at h
  split at h
  · exact .inl (Prod.mk.inj (Except.ok.inj h)).2.symm
  · next hsome =>
      obtain ⟨_, hfields, h⟩ := bind_eq_ok.mp h
      obtain ⟨planned, hplanned, h⟩ := bind_eq_ok.mp h
      split at h
      · exact .inl (Prod.mk.inj (Except.ok.inj h)).2.symm
      · next hrecord =>
          obtain ⟨merged, hmerged, h⟩ := bind_eq_ok.mp h
          obtain ⟨frame, hframe, -⟩ := bind_eq_ok.mp h
          have hlogged : encodeRecord env (t.updateRecord planned merged) = .ok frame := hframe
          refine .inr ⟨frame, ?_⟩
          simp only [Call.frames, if_neg hsome, hfields, hplanned, hmerged, hlogged, if_neg hrecord, bind, Except.bind,
            pure, Except.pure]

end Appends

namespace Table

variable {env : Env τ ν} {t t' : Table M}

theorem forgetAll_wal (w : Writer M) (ids : List SegmentId) : (w.forgetAll ids).wal = w.wal := by
  rw [Writer.forgetAll_eq]

theorem GaveUp.wal {retired : List SegmentId} (h : t.GaveUp retired t') : t'.writer.wal = t.writer.wal := by
  obtain ⟨io, rfl⟩ := h
  exact forgetAll_wal _ retired

theorem deleteSegments_wal {segmentIds : List SegmentId} {deleted : Nat}
    (h : t.deleteSegments segmentIds = .ok (deleted, t')) : t'.writer.wal = t.writer.wal := by
  rcases deleteSegments_ok h with ⟨-, rfl⟩ | ⟨-, f, -, rfl⟩
  · exact forgetAll_wal _ _
  · exact forgetAll_wal _ _

variable [DecidableEq τ]

theorem compactRun_wal {ids : List SegmentId} {rows : Nat} (h : t.compactRun env ids = .ok (rows, t')) :
    t'.writer.wal = t.writer.wal := by
  unfold compactRun at h
  split at h
  · obtain ⟨-, rfl⟩ := Prod.mk.inj (Except.ok.inj h)
    rfl
  · obtain ⟨rewrite, -, h⟩ := bind_eq_ok.mp h
    obtain ⟨⟨_, t₁⟩, hlocked, h⟩ := bind_eq_ok.mp h
    obtain ⟨-, rfl⟩ := Prod.mk.inj (Except.ok.inj h)
    rcases compactLocked_ok hlocked with ⟨-, rfl⟩ | ⟨groups, pending, f, -, -, -, -, rfl⟩
    · rfl
    · exact forgetAll_wal _ _

/-- The runs of a compaction that return leave the logs alone. -/
theorem compactRuns_wal {cut : List (List SegmentId)} {done done' : Nat × Table M}
    (h : cut.foldlM (fun (done : Nat × Table M) run => do
      let (more, t) ← compactRun env done.2 run
      return (done.1 + more, t)) done = .ok done') : done'.2.writer.wal = done.2.writer.wal := by
  refine foldlM_ok (P := fun d : Nat × Table M => d.2.writer.wal = done.2.writer.wal) ?_ rfl h
  intro d run d' hd hstep
  obtain ⟨⟨more, t₁⟩, hrun, hstep⟩ := bind_eq_ok.mp hstep
  obtain rfl := Except.ok.inj hstep
  exact (compactRun_wal hrun).trans hd

theorem compactSegments_wal {ids : List SegmentId} {rows : Nat} (h : t.compactSegments env ids = .ok (rows, t')) :
    t'.writer.wal = t.writer.wal := by
  unfold compactSegments at h
  split at h
  · obtain ⟨-, rfl⟩ := Prod.mk.inj (Except.ok.inj h)
    rfl
  · obtain ⟨cut, -, h⟩ := bind_eq_ok.mp h
    obtain ⟨⟨_, t₁⟩, hruns, h⟩ := bind_eq_ok.mp h
    obtain ⟨-, rfl⟩ := Prod.mk.inj (Except.ok.inj h)
    have hwal : t₁.writer.wal = t.pin.writer.wal := compactRuns_wal hruns
    exact hwal

theorem CompactSegmentsFails.wal {ids : List SegmentId} (h : CompactSegmentsFails env t ids t') :
    t'.writer.wal = t.writer.wal := by
  cases h with
  | runs hsome hruns => rfl
  | @run cut t₁ hsome hcut hfails =>
      obtain ⟨front, run, back, reached, -, hfront, hrun⟩ := hfails
      have hreached : reached.2.writer.wal = t.writer.wal := compactRuns_wal hfront
      cases hrun with
      | read hrun => exact hreached
      | locked hrun hread hlocked =>
          have hgave : _ = reached.2.pin.writer.wal := hlocked.gaveUp.wal
          exact hgave.trans hreached

theorem flushLocked_wal_of_empty {rows : Nat} (hempty : (t.frozen env).isEmpty)
    (h : t.flushLocked env = .ok (rows, t')) : t'.writer.wal = t.writer.wal := by
  rcases flushLocked_ok h with ⟨-, rfl⟩ | ⟨-, -, hsome, -⟩
  · rfl
  · exact absurd hempty hsome

theorem setSchema_wal_of_empty {schema : Schema τ} {rewrite : Bool} (hempty : (t.frozen env).isEmpty)
    (h : t.setSchema env schema rewrite = .ok t') : t'.writer.wal = t.writer.wal := by
  obtain ⟨⟨rows, t₁⟩, hflush, h⟩ := bind_eq_ok.mp h
  obtain ⟨after, -, h⟩ := bind_eq_ok.mp h
  obtain ⟨t₂, hlocked, h⟩ := bind_eq_ok.mp h
  obtain rfl := Except.ok.inj h
  obtain ⟨t₃, hcommit, rfl⟩ := setSchemaLocked_ok hlocked
  have hflushed : t₁.writer.wal = t.writer.wal := flushLocked_wal_of_empty hempty hflush
  refine Eq.trans ?_ hflushed
  obtain ⟨-, extent, file, -, ⟨-, f, -, rfl⟩ | ⟨-, pending, f, -, -, rfl⟩⟩ := commitSchema_ok hcommit
  · rfl
  · exact forgetAll_wal _ _

theorem SetSchemaFails.wal_of_empty {schema : Schema τ} {rewrite : Bool} {retired : List SegmentId}
    (hempty : (t.frozen env).isEmpty) (h : SetSchemaFails env t schema rewrite retired t') :
    t'.writer.wal = t.writer.wal := by
  cases h with
  | flush hfails => exact absurd hempty hfails.takes.1
  | schema hflush hnew => exact flushLocked_wal_of_empty hempty hflush
  | @locked rows t₁ t₂ after _ hflush hafter hfails =>
      have hgave : t₂.writer.wal = t₁.writer.wal := hfails.gaveUp.wal
      exact hgave.trans (flushLocked_wal_of_empty hempty hflush)

end Table

namespace Call

variable [DecidableEq τ] {env : Env τ ν} {t t' : Table M} {call : Call τ ν}

theorem Quiet.no_frames (h : call.Quiet env t) {frames : List Bytes} (hframes : call.frames env t = .ok frames) :
    frames = [] := h.1 frames hframes

/-- A call that returns and has no reason to write to a log leaves both logs alone. -/
theorem Returns.wal (h : call.Returns env t t') (hquiet : call.Quiet env t) : t'.writer.wal = t.writer.wal := by
  cases call with
  | snapshot =>
      obtain rfl := h
      rfl
  | dropSnapshot index =>
      obtain rfl := h
      rfl
  | scan =>
      obtain rfl := h
      rfl
  | insert batches =>
      obtain ⟨rows, h⟩ := h
      obtain ⟨⟨count, t₁⟩, hlocked, hrest⟩ := bind_eq_ok.mp h
      rcases insertLocked_frames hlocked with ⟨rfl, rfl⟩ | ⟨frames, hframes, hsome⟩
      · obtain ⟨-, rfl⟩ := Prod.mk.inj (Except.ok.inj hrest)
        rfl
      · exact absurd (hquiet.no_frames hframes) hsome
  | delete segmentDeletions memtableSeqnos =>
      obtain ⟨deleted, h⟩ := h
      rcases delete_frames h with rfl | ⟨frame, hframe⟩
      · rfl
      · exact absurd (hquiet.no_frames hframe) (List.cons_ne_nil _ _)
  | update segmentDeletions memtableSeqnos replacements =>
      obtain ⟨rows, h⟩ := h
      obtain ⟨⟨count, t₁⟩, hlocked, hrest⟩ := bind_eq_ok.mp h
      rcases updateLocked_frames hlocked with rfl | ⟨frame, hframe⟩
      · dsimp only at hrest
        rw [if_pos rfl] at hrest
        obtain ⟨-, rfl⟩ := Prod.mk.inj (Except.ok.inj hrest)
        rfl
      · exact absurd (hquiet.no_frames hframe) (List.cons_ne_nil _ _)
  | flush =>
      obtain ⟨rows, h⟩ := h
      exact Table.flushLocked_wal_of_empty (not_not.mp hquiet.2) h
  | compactSegments ids =>
      obtain ⟨rows, h⟩ := h
      exact Table.compactSegments_wal h
  | deleteSegments segmentIds =>
      obtain ⟨deleted, h⟩ := h
      exact Table.deleteSegments_wal h
  | change c =>
      rcases Table.change_ok h with ⟨-, rfl⟩ | ⟨schema, rewrite, hplan, hset⟩
      · rfl
      · have hempty : (t.frozen env).isEmpty := by
          by_contra hsome
          exact hquiet.2 ⟨hsome, schema, rewrite, hplan⟩
        exact Table.setSchema_wal_of_empty hempty hset

theorem Fails.wal (h : call.Fails env t t') (hquiet : call.Quiet env t) : t'.writer.wal = t.writer.wal := by
  cases call with
  | snapshot => exact h.elim
  | dropSnapshot index => exact h.elim
  | scan =>
      obtain rfl := h
      rfl
  | insert batches =>
      cases h with
      | fields hrows hfields => rfl
      | encode hrows hfields hencode htaken => rfl
      | @append frames wal hrows hfields hframes =>
          have hlogged : (Call.insert batches).frames env t = .ok frames := by
            rw [Call.frames, if_neg hrows, hfields]
            exact hframes
          exact absurd (hquiet.no_frames hlogged) (mapM_ne_nil (planInserts_ne_nil hrows) hframes)
      | flush hinsert hrows hlimits hflush =>
          rcases insertLocked_frames hinsert with ⟨hzero, -⟩ | ⟨frames, hframes, hsome⟩
          · exact absurd hzero hrows
          · exact absurd (hquiet.no_frames hframes) hsome
  | delete segmentDeletions memtableSeqnos =>
      cases h with
      | plan hsome hplan => rfl
      | encode hsome hplanned hdeletes hencode => rfl
      | @append planned frame wal hsome hplanned hdeletes hframe =>
          have hlogged : (Call.delete segmentDeletions memtableSeqnos).frames env t = .ok [frame] := by
            simp only [Call.frames, if_neg hsome, hplanned, hframe, if_neg hdeletes, bind, Except.bind, pure, Except.pure]
          exact absurd (hquiet.no_frames hlogged) (List.cons_ne_nil _ _)
  | update segmentDeletions memtableSeqnos replacements =>
      cases h with
      | fields hsome hfields => rfl
      | plan hupdates hplan => rfl
      | merge hupdates hplanned hrecord hmerge => rfl
      | encode hupdates hplanned hrecord hmerged hencode => rfl
      | @append planned merged frame wal hupdates hplanned hrecord hmerged hframe =>
          have hlogged : (Call.update segmentDeletions memtableSeqnos replacements).frames env t = .ok [frame] := by
            simp only [Call.frames, if_neg hupdates.some, hupdates.fields, hplanned, hmerged, hframe, if_neg hrecord, bind,
              Except.bind, pure, Except.pure]
          exact absurd (hquiet.no_frames hlogged) (List.cons_ne_nil _ _)
      | flush hupdate hchanged hlimits hflush =>
          rcases updateLocked_frames hupdate with rfl | ⟨frame, hframe⟩
          · exact absurd rfl hchanged
          · exact absurd (hquiet.no_frames hframe) (List.cons_ne_nil _ _)
  | flush => exact absurd h.takes.1 hquiet.2
  | compactSegments ids => exact Table.CompactSegmentsFails.wal h
  | deleteSegments segmentIds =>
      obtain ⟨retired, h⟩ := h
      exact h.gaveUp.wal
  | change c =>
      cases h with
      | plan hplan => rfl
      | @set schema rewrite _ _ hplan hset =>
          have hempty : (t.frozen env).isEmpty := by
            by_contra hsome
            exact hquiet.2 ⟨hsome, schema, rewrite, hplan⟩
          exact hset.wal_of_empty hempty

end Call

namespace Handle

variable [DecidableEq τ] {env : Env τ ν} {h h' : Handle M} {call : Call τ ν}

omit [DecidableEq τ] in
/-- The files are as they were when the table file, the logs and what the logs start with are. -/
theorem disk_eq (hfile : FileIo.ReadOnly h.table.writer.file.io h'.table.writer.file.io)
    (hwal : h'.table.writer.wal = h.table.writer.wal) (hheadA : h'.headA = h.headA) (hheadB : h'.headB = h.headB) :
    h'.disk = h.disk := by
  rw [disk, disk, hfile.file_eq, hwal, hheadA, hheadB]

theorem Returns.disk_eq (hcall : h.Returns env call h') (hquiet : call.Quiet env h.table) : h'.disk = h.disk := by
  have hwal := hcall.call.wal hquiet
  refine Handle.disk_eq hcall.file hwal ?_ ?_
  · rw [hcall.headA, hwal, nextHead, if_pos rfl]
  · rw [hcall.headB, hwal, nextHead, if_pos rfl]

theorem Fails.disk_eq (hcall : h.Fails env call h') (hquiet : call.Quiet env h.table) : h'.disk = h.disk := by
  have hwal := hcall.call.wal hquiet
  refine Handle.disk_eq hcall.file hwal (hcall.headA ?_) (hcall.headB ?_)
  · rw [hwal]
  · rw [hwal]

end Handle

section Opened

variable [DecidableEq τ] {env : Env τ ν}

omit [DecidableEq τ] in
/-- A log that is there is its first bytes and what the handle takes for its records. -/
theorem openRawOne_split {checksum : Bytes → UInt64} {uuid : List UInt8} {content : Bytes} {f : WalFile}
    (h : WalPair.openRawOne checksum (some content) uuid = .ok f) :
    logHead checksum uuid (some content) ++ f.disk.bytes = content := by
  obtain ⟨opened, hopened, h⟩ := bind_eq_ok.mp h
  have hfile : opened = f := (ite_throw_eq_ok.mp h).2 |> Except.ok.inj
  subst hfile
  obtain ⟨-, hopened⟩ := ite_throw_eq_ok.mp hopened
  obtain ⟨header, -, hopened⟩ := bind_eq_ok.mp hopened
  split at hopened
  · obtain rfl := Except.ok.inj hopened
    exact List.take_append_drop walHeaderLen content
  · cases hopened

omit [DecidableEq τ] in
/-- Recovery leaves a log alone that ends with a whole record. -/
theorem recover_of_whole {f f' : WalFile} {log : RecoveredLog τ ν} (h : f.recover env = .ok (log, f'))
    (hwhole : log.truncated = false) : f' = f := by
  obtain ⟨⟨records, truncatedAt⟩, -, h⟩ := bind_eq_ok.mp h
  cases truncatedAt with
  | none => exact (Prod.mk.inj (Except.ok.inj h)).2.symm
  | some good =>
      obtain ⟨rfl, -⟩ := Prod.mk.inj (Except.ok.inj h)
      cases hwhole

omit [DecidableEq τ] in
theorem LogsWhole.left {uuid : List UInt8} {a b a' b' : Option Bytes} (h : LogsWhole env uuid a b)
    (hleft : LogsLeft env uuid a b a' b') : a' = a ∧ b' = b := by
  obtain ⟨ha, hrest⟩ := h
  obtain ⟨contentA, rfl⟩ := Option.ne_none_iff_exists'.mp ha
  cases hleft with
  | createA hnone left => cases hnone
  | openB hopenA => exact ⟨rfl, rfl⟩
  | createB hopenA hnone left => exact absurd hnone (hrest _ hopenA).1
  | recoverA hopenA hopenB =>
      obtain ⟨contentB, rfl⟩ := Option.ne_none_iff_exists'.mp (hrest _ hopenA).1
      exact ⟨rfl, rfl⟩
  | recoverB hopenA hopenB hrecoverA =>
      obtain ⟨hb, hwhole⟩ := hrest _ hopenA
      obtain ⟨contentB, rfl⟩ := Option.ne_none_iff_exists'.mp hb
      obtain rfl := recover_of_whole hrecoverA (hwhole _ hopenB _ _ hrecoverA).1
      exact ⟨congrArg some (openRawOne_split hopenA), rfl⟩
  | replay hopenA hopenB hrecoverA hrecoverB =>
      obtain ⟨hb, hwhole⟩ := hrest _ hopenA
      obtain ⟨contentB, rfl⟩ := Option.ne_none_iff_exists'.mp hb
      obtain ⟨hwholeA, hwholeB⟩ := hwhole _ hopenB _ _ hrecoverA
      obtain rfl := recover_of_whole hrecoverA hwholeA
      obtain rfl := recover_of_whole hrecoverB (hwholeB _ _ hrecoverB)
      exact ⟨congrArg some (openRawOne_split hopenA), congrArg some (openRawOne_split hopenB)⟩

omit [DecidableEq τ] in
theorem applyLoggedDeletes_wal (w : Writer M) (segments : List SegmentDeletes) :
    (applyLoggedDeletes w segments).wal = w.wal := by
  induction segments generalizing w with
  | nil => rfl
  | cons logged segments ih =>
      refine (ih _).trans ?_
      dsimp only
      split
      · rfl
      · rfl

theorem replayRecord_wal {w w' : Writer M} {record : WalRecord τ ν} (h : replayRecord env w record = .ok w') :
    w'.wal = w.wal := by
  cases record with
  | insert lsn baseSeqno batch =>
      obtain ⟨decoded, -, h⟩ := bind_eq_ok.mp h
      rw [← Except.ok.inj h]
  | delete lsn segments memtableRows =>
      rw [← Except.ok.inj h]
      exact applyLoggedDeletes_wal w segments
  | update lsn segments memtableRows baseSeqno batch =>
      obtain ⟨decoded, -, h⟩ := bind_eq_ok.mp h
      rw [← Except.ok.inj h]
      exact applyLoggedDeletes_wal w segments

/-- Replay leaves of the logs what their recovery does. -/
theorem replay_wal {w w' : Writer M} {checkpointLsn : Lsn} (h : replay env w checkpointLsn = .ok w') :
    ∃ logA logB, w.wal.a.recover env = .ok (logA, w'.wal.a) ∧ w.wal.b.recover env = .ok (logB, w'.wal.b) := by
  obtain ⟨⟨records, wal⟩, hrecover, h⟩ := bind_eq_ok.mp h
  obtain ⟨w₁, hfold, hdone⟩ := bind_eq_ok.mp h
  have hwal : w₁.wal = wal := foldlM_ok (f := replayRecord env) (s := { w with wal := wal })
    (P := fun q : Writer M => q.wal = wal) (fun _ _ _ hs hstep => (replayRecord_wal hstep).trans hs) rfl hfold
  obtain ⟨⟨logA, a⟩, hA, hrecover⟩ := bind_eq_ok.mp hrecover
  obtain ⟨⟨logB, b⟩, hB, hrecover⟩ := bind_eq_ok.mp hrecover
  obtain ⟨-, rfl⟩ := Prod.mk.inj (Except.ok.inj hrecover)
  rw [← Except.ok.inj hdone]
  refine ⟨logA, logB, ?_, ?_⟩
  · dsimp only
    rw [hwal, hA]
  · dsimp only
    rw [hwal, hB]

omit [DecidableEq τ] in
theorem openFile_io {file : M.File} {kind : TableKind} {f : TableFile M} (h : TableFile.openFile file kind = .ok f) :
    f.io.file = file := by
  obtain ⟨header, -, h⟩ := bind_eq_ok.mp h
  obtain ⟨-, -, h⟩ := bind_eq_ok.mp h
  obtain ⟨⟨committed, slot⟩, -, h⟩ := bind_eq_ok.mp h
  obtain ⟨schema, -, h⟩ := bind_eq_ok.mp h
  rw [← Except.ok.inj h]

omit [DecidableEq τ] in
theorem Disk.read_io {disk : Disk M} {file : TableFile M} {schema : TableSchema τ}
    {deletes : SegmentId → Option (Finset Nat)} (h : disk.read env = .ok (file, schema, deletes)) :
    file.io.file = disk.file := by
  obtain ⟨f, hopen, h⟩ := bind_eq_ok.mp h
  obtain ⟨current, -, h⟩ := bind_eq_ok.mp h
  obtain ⟨deletions, -, h⟩ := bind_eq_ok.mp h
  obtain ⟨rfl, -⟩ := Prod.mk.inj (Except.ok.inj h)
  exact openFile_io hopen

/-- A handle over whole logs has left the files alone so far. -/
theorem Disk.replayed_disk {disk : Disk M} {h : Handle M} (hreplayed : disk.replayed env = .ok h)
    (hquiet : OpensQuietly env disk) : h.disk = disk := by
  obtain ⟨⟨file, schema, deletes⟩, hread, hreplayed⟩ := bind_eq_ok.mp hreplayed
  obtain ⟨wal, hwal, hreplayed⟩ := bind_eq_ok.mp hreplayed
  obtain ⟨w, hreplay, hreplayed⟩ := bind_eq_ok.mp hreplayed
  obtain rfl := Except.ok.inj hreplayed
  have hlogs : LogsWhole env file.header.tableUuid disk.a disk.b := hquiet.1 file schema deletes hread
  have hfile : w.file.io.file = disk.file := by
    rw [replay_file hreplay]
    exact Disk.read_io hread
  obtain ⟨fa, hopenA, hwal⟩ := bind_eq_ok.mp hwal
  obtain ⟨fb, hopenB, hwal⟩ := bind_eq_ok.mp hwal
  obtain rfl := Except.ok.inj hwal
  obtain ⟨logA, logB, hrecoverA, hrecoverB⟩ := replay_wal hreplay
  obtain ⟨ha, hb⟩ := hlogs.left (.replay hopenA hopenB hrecoverA hrecoverB)
  rw [Handle.disk, hfile, ha, hb]

theorem Opens.disk_eq {disk : Disk M} {s : Access M} (h : Opens env disk s) (hquiet : OpensQuietly env disk) :
    s.disk = disk := by
  cases h with
  | fails => rfl
  | logs hread hleft =>
      obtain ⟨rfl, rfl⟩ := (hquiet.1 _ _ _ hread).left hleft
      rfl
  | opened hreplayed hlimits => exact Disk.replayed_disk hreplayed hquiet
  | @flushed h h' hreplayed hlimits hcall =>
      have hempty := hquiet.2 h hreplayed hlimits
      have hflush : Call.flush.Quiet env h.table := ⟨fun frames hframes => (Except.ok.inj hframes).symm, not_not.mpr hempty⟩
      exact (hcall.disk_eq hflush).trans (Disk.replayed_disk hreplayed hquiet)
  | flushFails hreplayed hlimits hcall => exact absurd (hquiet.2 _ hreplayed hlimits) hcall.call.takes.1

theorem ReadOnlyStep.disk_eq {s s' : Access M} {action : Action τ ν} (hstep : ReadOnlyStep env s action s')
    (hquiet : action.Quiet env s) : s'.disk = s.disk := by
  cases hstep with
  | openTable h => exact h.disk_eq hquiet
  | close h => rfl
  | returns call hcall => exact hcall.disk_eq hquiet
  | fails call hcall => exact hcall.disk_eq hquiet

/-- A run of a read-only program, whatever it does. -/
def ReadOnlyRun (env : Env τ ν) : Access M → Access M → Prop :=
  Relation.ReflTransGen fun s s' => ∃ action, ReadOnlyStep env s action s'

/-- A run in which no action has a reason to write to a log. -/
def QuietRun (env : Env τ ν) : Access M → Access M → Prop :=
  Relation.ReflTransGen fun s s' => ∃ action : Action τ ν, action.Quiet env s ∧ ReadOnlyStep env s action s'

/-- Where no action has a reason to write to a log, the table file and both logs are at the end what they were at the
start. -/
theorem read_only_changes_nothing {s s' : Access M} (hrun : QuietRun env s s') : s'.disk = s.disk := by
  induction hrun with
  | refl => rfl
  | tail _ hstep ih =>
      obtain ⟨action, hquiet, hstep⟩ := hstep
      exact (hstep.disk_eq hquiet).trans ih

end Opened

section Stored

/-- Two logs that are nothing but their headers are whole. -/
theorem logsWhole_of_headers (env : Env τ ν) {uuid : List UInt8} {a b : Bytes} (ha : a.length = walHeaderLen)
    (hb : b.length = walHeaderLen) : LogsWhole env uuid (some a) (some b) := by
  have hclean : ∀ {content : Bytes} {f f' : WalFile} {log : RecoveredLog τ ν}, content.length = walHeaderLen →
      WalPair.openRawOne env.checksum (some content) uuid = .ok f → f.recover env = .ok (log, f') →
      log.truncated = false := by
    intro content f f' log hlen hopen hrecover
    have hbytes : f.disk.bytes = [] := by
      have hsplit := congrArg List.length (openRawOne_split hopen)
      have hhead : (logHead env.checksum uuid (some content)).length = walHeaderLen := by
        rw [logHead, List.length_take]
        exact min_eq_left hlen.ge
      rw [List.length_append, hhead, hlen] at hsplit
      exact List.length_eq_zero_iff.mp (by omega)
    have hscan : scan env f.disk.bytes f.disk.bytes.length 0 = .ok ([], none) := by
      rw [hbytes]
      rfl
    rw [WalFile.recover, hscan] at hrecover
    rw [← (Prod.mk.inj (Except.ok.inj hrecover)).1]
  exact ⟨Option.some_ne_none a, fun fa hopenA => ⟨Option.some_ne_none b, fun fb hopenB logA fa' hrecoverA =>
    ⟨hclean ha hopenA hrecoverA, fun logB fb' hrecoverB => hclean hb hopenB hrecoverB⟩⟩⟩

def readEnv : Env Unit Nat := plainEnv plainOptions [.insert 1 0 ⟨[()], [[7], [8]]⟩]

/-- The files of a table of one segment that was flushed and closed. -/
def storedDisk : Except Error (Disk (Journal plainSizes)) := do
  let t₀ ← Table.create readEnv (Journal plainSizes) plainSchema (fun _ => 0) (fun _ => List.replicate 16 0) none
  let (_, t₁) ← t₀.insertLocked readEnv [⟨plainSchema.fields, [[7], [8]]⟩]
  let (_, t) ← t₁.flushLocked readEnv
  return ⟨t.writer.file.io.file, some (t.writer.wal.a.disk.raw readEnv.checksum),
    some (t.writer.wal.b.disk.raw readEnv.checksum)⟩

/-- Dropping a segment through a read-only handle is refused, and the files are as they were. -/
theorem refused_drop_changes_nothing : ∃ (disk : Disk (Journal plainSizes)) (h h' : Handle (Journal plainSizes)),
    disk.a ≠ none ∧ disk.b ≠ none ∧ Opens readEnv disk (.opened h) ∧ h.Fails readEnv (.deleteSegments [0]) h' ∧
      (Access.closed h'.disk).disk = disk := by
  have hcheck : (match (do
      let disk ← storedDisk
      let h ← disk.replayed readEnv
      return (disk, h) : Except Error _) with
      | .ok (disk, h) => decide (disk.a.map List.length = some walHeaderLen ∧ disk.b.map List.length = some walHeaderLen ∧
          ¬h.table.shouldFlush readEnv ∧ h.table.droppedRows [0] ≠ 0)
      | .error _ => false) = true := by decide +kernel
  cases hstored : storedDisk with
  | error e =>
      rw [hstored] at hcheck
      cases hcheck
  | ok disk =>
      cases hreplayed : disk.replayed readEnv with
      | error e =>
          simp only [hstored, hreplayed, bind, Except.bind] at hcheck
          cases hcheck
      | ok h =>
          simp only [hstored, hreplayed, bind, Except.bind, pure, Except.pure] at hcheck
          obtain ⟨ha, hb, hlimits, hrows⟩ := of_decide_eq_true hcheck
          obtain ⟨a, hdiskA, ha⟩ := Option.map_eq_some_iff.mp ha
          obtain ⟨b, hdiskB, hb⟩ := Option.map_eq_some_iff.mp hb
          have hquiet : OpensQuietly readEnv disk := by
            refine ⟨fun file schema deletes _ => ?_, fun h₁ hh₁ hover => ?_⟩
            · rw [hdiskA, hdiskB]
              exact logsWhole_of_headers readEnv ha hb
            · rw [hreplayed] at hh₁
              obtain rfl := Except.ok.inj hh₁
              exact absurd hover hlimits
          let t' := (h.table.withIo h.table.writer.file.io).withWriter
            ((h.table.withIo h.table.writer.file.io).writer.forgetAll
              ((h.table.dropped [0]).map SegmentEntry.segmentId))
          have hfails : h.Fails readEnv (.deleteSegments [0]) ⟨t', h.headA, h.headB⟩ := by
            refine ⟨⟨_, .commit hrows ⟨_, .stop _ _, rfl⟩⟩, ?_, fun _ => rfl, fun _ => rfl⟩
            have hio : t'.writer.file.io = h.table.writer.file.io := by
              dsimp only [t', Table.withWriter]
              rw [Writer.forgetAll_eq]
              rfl
            rw [hio]
            exact .refl _
          have hdrop : Call.Quiet readEnv h.table (.deleteSegments [0]) :=
            ⟨fun frames hframes => (Except.ok.inj hframes).symm, id⟩
          have hopens : Opens readEnv disk (.opened h) := .opened hreplayed hlimits
          refine ⟨disk, h, ⟨t', h.headA, h.headB⟩, by simp [hdiskA], by simp [hdiskB], hopens, hfails, ?_⟩
          have hclose : Action.Quiet readEnv (.opened ⟨t', h.headA, h.headB⟩) .close := trivial
          have hrun : QuietRun readEnv (.closed disk) (.closed (Handle.disk ⟨t', h.headA, h.headB⟩)) :=
            ((Relation.ReflTransGen.single ⟨.openTable, hquiet, .openTable hopens⟩).tail
              ⟨.call _, hdrop, .fails _ hfails⟩).tail ⟨.close, hclose, .close _⟩
          exact read_only_changes_nothing hrun

/-- Opening a table file that was copied without its logs creates both. -/
theorem read_only_open_creates_logs : ∃ (file : (Journal plainSizes).File) (s : Access (Journal plainSizes)),
    ReadOnlyRun readEnv (.closed ⟨file, none, none⟩) s ∧ s.disk ≠ ⟨file, none, none⟩ ∧ s.disk.a ≠ none ∧
      s.disk.b ≠ none := by
  have hcheck : (match (do
      let disk ← storedDisk
      let h ← Disk.replayed readEnv { disk with a := none, b := none }
      return (disk, h) : Except Error _) with
      | .ok (_, h) => decide (¬h.table.shouldFlush readEnv)
      | .error _ => false) = true := by decide +kernel
  cases hstored : storedDisk with
  | error e =>
      rw [hstored] at hcheck
      cases hcheck
  | ok disk =>
      cases hreplayed : Disk.replayed readEnv { disk with a := none, b := none } with
      | error e =>
          simp only [hstored, hreplayed, bind, Except.bind] at hcheck
          cases hcheck
      | ok h =>
          simp only [hstored, hreplayed, bind, Except.bind, pure, Except.pure] at hcheck
          have hlimits := of_decide_eq_true hcheck
          refine ⟨disk.file, .opened h, .single ⟨.openTable, .openTable (.opened hreplayed hlimits)⟩, fun hsame => ?_,
            Option.some_ne_none _, Option.some_ne_none _⟩
          exact Option.some_ne_none _ (congrArg Disk.a hsame)

end Stored

end LocalTables
