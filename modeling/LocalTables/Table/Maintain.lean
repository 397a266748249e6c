import LocalTables.Table.Basic

/-! Compaction (`maintain.rs`) and schema changes (`evolve.rs`). A compaction reads its rows without the
writer lock and takes the lock to write them back: the two halves are separate steps here. A schema
change that leaves every stored byte meaning what it meant records a new schema; one that does not
rewrites every live segment in the same commit. -/

namespace LocalTables

variable {τ ν : Type} {M : Media τ ν}

/-- Drop the snapshot taken last, as when the one an operation took goes out of scope. -/
def Table.unpinFirst (t : Table M) : Table M := t.unpin 0

section Compact

/-- What the read half of a compaction hands to the locked half. -/
structure Rewrite (τ ν : Type) where
  ids : List SegmentId
  snapshot : Snapshot τ ν
  live : List (RecordBatch τ ν)
  sources : List SegmentEntry

/-- How many rows of a segment are deleted. -/
def deletedIn (deletes : SegmentId → Option (Finset Nat)) (id : SegmentId) : Nat :=
  ((deletes id).map Finset.card).getD 0

namespace Table

variable (env : Env τ ν) (t : Table M)

/-- Read the live rows of one segment through the snapshot published last. -/
def readSource (id : SegmentId) : Except Error (List (RecordBatch τ ν) × SegmentEntry) :=
  match t.current.manifest.segment id with
  | none => .error (.invalidArgument s!"segment {id} is not in this table")
  | some entry => do
      let batches ← readSegment env t.writer.file.io.file t.current entry
      return (batches, entry)

/-- The read half of `compact_run`, outside the lock. -/
def compactRead (ids : List SegmentId) : Except Error (Rewrite τ ν) := do
  let read ← ids.mapM (t.readSource env)
  return ⟨ids, t.current, (read.map Prod.fst).flatten, read.map Prod.snd⟩

/-- A delete landed while the rows were being read. -/
def isStale (rewrite : Rewrite τ ν) : Bool :=
  rewrite.sources.any fun entry =>
    deletedIn t.writer.deletes entry.segmentId ≠ deletedIn rewrite.snapshot.deletes entry.segmentId

/-- The locked half of `compact_run`. A stale rewrite is abandoned. -/
def compactLocked [DecidableEq τ] (rewrite : Rewrite τ ν) : Except Error (Nat × Table M) := do
  if t.isStale rewrite then
    return (0, t)
  else
    let manifest := t.writer.file.beginManifest
    let rows := totalRows rewrite.live
    let groupRows := env.options.rowGroupSizeFor (max manifest.totalRows rows)
    let groups ← rowGroups env rewrite.live groupRows t.schema.schema t.schema.clusterColumns
    let pending ← groups.foldlM (writeSegment env t.schema t.minActiveTxn) ⟨t.writer.file.io, manifest⟩
    -- the rewritten segments and their bitmaps are garbage as of this commit, not before it
    let t := t.withIo pending.io
    let t := t.withWriter (t.writer.forgetAll (rewrite.sources.map SegmentEntry.segmentId))
    let t ← t.commit (pending.manifest.retire rewrite.ids rewrite.sources)
    return (rows, t)

/-- Rewrite one run of segments. Its snapshot is held from the read to the end. -/
def compactRun [DecidableEq τ] (ids : List SegmentId) : Except Error (Nat × Table M) := do
  if ids.isEmpty then
    return (0, t)
  else
    let t := t.pin
    let rewrite ← t.compactRead env ids
    let (rows, t) ← t.compactLocked env rewrite
    return (rows, t.unpinFirst)

/-- Add one segment to the runs cut so far; the last of them holds `bytes` bytes. -/
def addToRuns (s : Snapshot τ ν) (cut : List (List SegmentId) × Nat) (id : SegmentId) :
    Except Error (List (List SegmentId) × Nat) :=
  match s.manifest.segment id with
  | none => .error (.invalidArgument s!"segment {id} is not in this table")
  | some entry =>
      let (runs, bytes) := cut
      let size := entry.data.len
      match runs.getLast? with
      | some run =>
          if bytes + size ≤ max env.options.compactionMaxBytes 1 then
            .ok (runs.dropLast ++ [run ++ [id]], bytes + size)
          else .ok (runs ++ [[id]], size)
      | none => .ok (runs ++ [[id]], size)

/-- Cut segments into runs that each fit the memory budget, or hold one segment. -/
def runs (s : Snapshot τ ν) (ids : List SegmentId) : Except Error (List (List SegmentId)) := do
  let (runs, _) ← ids.foldlM (addToRuns env s) ([], 0)
  return runs

/-- Rewrite the named segments, dropping their deleted rows. Each run is its own commit; the snapshot
the runs were cut from is held throughout. -/
def compactSegments [DecidableEq τ] (ids : List SegmentId) : Except Error (Nat × Table M) := do
  if ids.isEmpty then
    return (0, t)
  else
    let t := t.pin
    let runs ← runs env t.current ids
    let (rows, t) ← runs.foldlM (fun (rows, t) run => do
      let (more, t) ← compactRun env t run
      return (rows + more, t)) (0, t)
    return (rows, t.unpinFirst)

/-- Rewrite every live segment with the options this handle holds. -/
def rewriteAll [DecidableEq τ] : Except Error (Nat × Table M) :=
  t.compactSegments env (t.current.liveSegments.map SegmentEntry.segmentId)

end Table

end Compact

section Evolve

variable (env : Env τ ν)

/-- Reshape a batch read under `before` into one that fits `after`. Columns are matched by name; one the
old schema does not have is filled with nulls. -/
def convert [DecidableEq τ] (before after : Schema τ) (batch : RecordBatch τ ν) :
    Except Error (RecordBatch τ ν) := do
  let rows ← batch.rows.mapM fun row => after.fields.mapM fun field =>
    match before.indexOf field.name with
    | none => return env.null
    | some at_ =>
        match batch.fields[at_]? with
        | none => throw (.arrow "a column is out of range")
        | some old =>
            let value := row.getD at_ env.null
            if old.dataType = field.dataType then return value
            else env.cast old.dataType field.dataType value
  if rows.all fun row => (row.zip after.fields).all fun (value, field) => field.nullable || !env.isNull value then
    return ⟨after.fields, rows⟩
  else
    throw (.arrow "a column declared as non-nullable contains null values")

/-- The same schema with different fields, keeping its metadata. -/
def schemaWith (schema : Schema τ) (fields : List (Field τ)) : Schema τ := ⟨fields, schema.metadata⟩

/-- A call of one of the four operations that change the schema. -/
inductive Change (τ : Type) where
  | addColumn (field : Field τ)
  | renameColumn (source target : String)
  | dropColumn (name : String)
  | castColumn (name : String) (target : τ)

/-- What the call works out from the schema it reads: the schema to commit, and whether the data has to be
rewritten. A cast to the type a column already has is over at once. -/
def Change.plan [DecidableEq τ] (current : Schema τ) : Change τ → Except Error (Option (Schema τ × Bool))
  | addColumn field =>
      if ¬field.nullable then
        .error (.invalidArgument
          s!"cannot add a non-nullable column {field.name}: the rows already stored have no value for it")
      else if (current.indexOf field.name).isSome then
        .error (.invalidArgument s!"the table already has a column named {field.name}")
      else .ok (some (schemaWith current (current.fields ++ [field]), false))
  | renameColumn source target =>
      match current.indexOf source with
      | none => .error (.invalidArgument s!"the table has no column named {source}")
      | some index =>
          if source ≠ target ∧ (current.indexOf target).isSome then
            .error (.invalidArgument s!"the table already has a column named {target}")
          else
            .ok (some (schemaWith current (current.fields.modify index fun field =>
              { field with name := target }), false))
  | dropColumn name =>
      match current.indexOf name with
      | none => .error (.invalidArgument s!"the table has no column named {name}")
      | some index =>
          if current.fields.length = 1 then .error (.invalidArgument "cannot drop the last column of a table")
          else .ok (some (schemaWith current (current.fields.eraseIdx index), true))
  | castColumn name target =>
      match current.indexOf name with
      | none => .error (.invalidArgument s!"the table has no column named {name}")
      | some index =>
          match current.fields[index]? with
          | none => .error (.invalidArgument s!"the table has no column named {name}")
          | some field =>
              if field.dataType = target then .ok none
              else if ¬env.canCast field.dataType target then .error (.invalidArgument s!"cannot cast {name}")
              else .ok (some (schemaWith current (current.fields.set index ⟨name, target, field.nullable⟩), true))

/-- A conversion in progress: the commit being prepared, and the batches not written yet. -/
structure Conversion (M : Media τ ν) where
  pending : Pending M
  batches : List (RecordBatch τ ν)
  bytes : Nat

namespace Table

variable (t : Table M)

/-- How a rewrite writes one row group. -/
abbrev GroupWriter (M : Media τ ν) := Pending M → List (RecordBatch τ ν) → Except Error (Pending M)

/-- Cut batches into row groups and write each one as a segment. -/
def writeGroups (write : GroupWriter M) (groupRows : Nat) (schema : TableSchema τ) (pending : Pending M)
    (batches : List (RecordBatch τ ν)) : Except Error (Pending M) := do
  let groups ← rowGroups env batches groupRows schema.schema schema.clusterColumns
  groups.foldlM write pending

/-- Convert one segment, and write the batches out once enough of them have collected. -/
def convertSegment [DecidableEq τ] (write : GroupWriter M) (s : Snapshot τ ν) (before after : TableSchema τ)
    (groupRows : Nat) (c : Conversion M) (entry : SegmentEntry) : Except Error (Conversion M) := do
  let read ← readSegmentAs env c.pending.io.file s entry before.schema.fields before.layout
  let converted ← read.mapM (convert env before.schema after.schema)
  let batches := c.batches ++ converted
  let bytes := c.bytes + entry.data.len
  if bytes < max env.options.compactionMaxBytes 1 then
    return ⟨c.pending, batches, bytes⟩
  else
    let pending ← writeGroups env write groupRows after c.pending batches
    return ⟨pending, [], 0⟩

/-- Read every live row under `before` and write it back under `after`. -/
def convertSegments [DecidableEq τ] (write : GroupWriter M) (s : Snapshot τ ν) (sources : List SegmentEntry)
    (before after : TableSchema τ) (pending : Pending M) : Except Error (Pending M) := do
  let groupRows := env.options.rowGroupSizeFor (sources.map SegmentEntry.rowCount).sum
  let c ← sources.foldlM (convertSegment env write s before after groupRows) ⟨pending, [], 0⟩
  writeGroups env write groupRows after c.pending c.batches

/-- Put the new schema where every reader of it looks. -/
def adoptSchema (after : TableSchema τ) : Table M :=
  publish { t with
    writer := { t.writer with
      file := t.writer.file.setSchema after.schema
      memtable := Memtable.new after.schema t.writer.memtable.nextSeqno }
    schema := after }

/-- The part of `set_schema` that holds the writer lock, up to and with its commit. The schema read as
`before` and the snapshot `s` were taken before the lock was. -/
def commitSchema [DecidableEq τ] (before after : TableSchema τ) (rewrite : Bool) (s : Snapshot τ ν) :
    Except Error (Table M) := do
  if ¬t.writer.memtable.isEmpty then
    throw (.invalidArgument "a write landed while the schema was changing; try again")
  else
    let sources := s.liveSegments
    let (extent, file) ← t.writer.file.writeSchema after.schema
    let manifest := { t.writer.file.beginManifest with schema := extent }
    let t := t.withIo file.io
    if rewrite then
      let pending ← convertSegments env (writeSegment env after t.minActiveTxn) s sources before after ⟨file.io, manifest⟩
      let t := t.withIo pending.io
      let t := t.withWriter (t.writer.forgetAll (sources.map SegmentEntry.segmentId))
      t.commit (pending.manifest.retire (sources.map SegmentEntry.segmentId) sources)
    else
      t.commit manifest

/-- All of `set_schema` that holds the writer lock. -/
def setSchemaLocked [DecidableEq τ] (before after : TableSchema τ) (rewrite : Bool) (s : Snapshot τ ν) :
    Except Error (Table M) := do
  let t ← t.commitSchema env before after rewrite s
  return t.adoptSchema after

/-- Commit a new schema, rewriting the data first when it has to. -/
def setSchema [DecidableEq τ] (schema : Schema τ) (rewrite : Bool) : Except Error (Table M) := do
  -- anything still in the memtable or the log carries the old schema
  let (_, t) ← t.flushLocked env
  let after ← TableSchema.new env schema
  let t := t.pin
  let t ← t.setSchemaLocked env t.schema after rewrite t.current
  return t.unpinFirst

/-- Make a change: plan it on the schema in force, and commit what was planned. -/
def change [DecidableEq τ] (c : Change τ) : Except Error (Table M) := do
  match ← c.plan env t.schema.schema with
  | none => return t
  | some (schema, rewrite) => t.setSchema env schema rewrite

/-- Add a column to the end of the schema. -/
def addColumn [DecidableEq τ] (field : Field τ) : Except Error (Table M) := t.change env (.addColumn field)

/-- Rename a column. -/
def renameColumn [DecidableEq τ] (source target : String) : Except Error (Table M) :=
  t.change env (.renameColumn source target)

/-- Drop a column. -/
def dropColumn [DecidableEq τ] (name : String) : Except Error (Table M) := t.change env (.dropColumn name)

/-- Change a column's type. -/
def castColumn [DecidableEq τ] (name : String) (target : τ) : Except Error (Table M) :=
  t.change env (.castColumn name target)

end Table

end Evolve

end LocalTables
