import LocalTables.Table.Log

/-! Writes and the schema in force. An insert or an update compares its batches with the schema before it
takes the writer lock, and does not compare them again under it. A whole schema change fits in between, and
a schema change in turn trusts its flush to have emptied the log. -/

namespace LocalTables

variable {τ ν : Type} {M : Media τ ν}

/-- The column types, which is all a logged batch keeps of its fields. -/
def Schema.types (schema : Schema τ) : List τ := schema.fields.map Field.dataType

/-- An insert or an update that passed its check and has yet to take the lock. -/
inductive Write (τ ν : Type) where
  | insert (batches : List (RecordBatch τ ν))
  | update (segmentDeletions : List (SegmentId × List Nat)) (memtableSeqnos : List Nat)
      (replacements : List (RecordBatch τ ν))

def Write.batches : Write τ ν → List (RecordBatch τ ν)
  | insert batches => batches
  | update _ _ replacements => replacements

/-- What the write does once it holds the lock. -/
def Write.land [DecidableEq τ] (env : Env τ ν) (t : Table M) : Write τ ν → Except Error (Table M)
  | insert batches => t.appendRows env batches
  | update segmentDeletions memtableSeqnos replacements => do
      let (_, t) ← t.replaceRows env segmentDeletions memtableSeqnos replacements
      return t

/-- A table and the writes in flight. -/
structure Callers (M : Media τ ν) where
  table : Table M
  checked : List (Write τ ν)

/-- One step of one of the callers. `landing` restricts the states a checked write may land in, `changing` the
ones a schema may be committed over. -/
inductive Callers.Step [DecidableEq τ] (env : Env τ ν) (landing : Table M → Write τ ν → Prop)
    (changing : Table M → TableSchema τ → Prop) : Callers M → Callers M → Prop where
  | check {t : Table M} {checked : List (Write τ ν)} (w : Write τ ν) (h : t.checkFields w.batches = .ok ()) :
      Step env landing changing ⟨t, checked⟩ ⟨t, w :: checked⟩
  | land {t t' : Table M} (front back : List (Write τ ν)) (w : Write τ ν) (hlanding : landing t w)
      (h : w.land env t = .ok t') : Step env landing changing ⟨t, front ++ w :: back⟩ ⟨t', front ++ back⟩
  | delete {t t' : Table M} {checked : List (Write τ ν)} (segmentDeletions : List (SegmentId × List Nat))
      (memtableSeqnos : List Nat) {deleted : Nat} (h : t.delete env segmentDeletions memtableSeqnos = .ok (deleted, t')) :
      Step env landing changing ⟨t, checked⟩ ⟨t', checked⟩
  | flush {t t' : Table M} {checked : List (Write τ ν)} {rows : Nat} (h : t.flushLocked env = .ok (rows, t')) :
      Step env landing changing ⟨t, checked⟩ ⟨t', checked⟩
  | compact {t t' : Table M} {checked : List (Write τ ν)} (rewrite : Rewrite τ ν) {rows : Nat}
      (h : t.compactLocked env rewrite = .ok (rows, t')) : Step env landing changing ⟨t, checked⟩ ⟨t', checked⟩
  | deleteSegments {t t' : Table M} {checked : List (Write τ ν)} (segmentIds : List SegmentId) {deleted : Nat}
      (h : t.deleteSegments segmentIds = .ok (deleted, t')) : Step env landing changing ⟨t, checked⟩ ⟨t', checked⟩
  | change {t t' : Table M} {checked : List (Write τ ν)} (before after : TableSchema τ) (rewrite : Bool)
      (s : Snapshot τ ν) (hchanging : changing t after) (h : t.setSchemaLocked env before after rewrite s = .ok t') :
      Step env landing changing ⟨t, checked⟩ ⟨t', checked⟩
  | pin {t : Table M} {checked : List (Write τ ν)} : Step env landing changing ⟨t, checked⟩ ⟨t.pin, checked⟩
  | unpin {t : Table M} {checked : List (Write τ ν)} (index : Nat) :
      Step env landing changing ⟨t, checked⟩ ⟨t.unpin index, checked⟩

/-- Any number of steps from a new table. -/
inductive Callers.Run [DecidableEq τ] (env : Env τ ν) (landing : Table M → Write τ ν → Prop)
    (changing : Table M → TableSchema τ → Prop) : Callers M → Prop where
  | create {t : Table M} (schema : Schema τ) (fingerprint : Schema τ → Nat) (newTableUuid : Extent → List UInt8)
      (h : Table.create env M schema fingerprint newTableUuid none = .ok t) : Run env landing changing ⟨t, []⟩
  | step {c c' : Callers M} (hrun : Run env landing changing c) (hstep : Callers.Step env landing changing c c') :
      Run env landing changing c'

namespace Table

variable {env : Env τ ν} {t t' : Table M}

/-- The batches a reopen would replay have the column types of a schema. -/
def LogFits (env : Env τ ν) (t : Table M) (schema : Schema τ) : Prop :=
  ∀ records wal, t.writer.wal.recover env = .ok (records, wal) →
    ∀ record ∈ t.unflushed records, ∀ data, record.batch? = some data → data.columns = schema.types

/-- `LogFits`, run. -/
def fitsNow [DecidableEq τ] (env : Env τ ν) (t : Table M) (schema : Schema τ) : Bool :=
  match t.writer.wal.recover env with
  | .ok (records, _) => (t.unflushed records).all fun record => record.batch?.all (·.columns = schema.types)
  | .error _ => true

theorem fitsNow_iff [DecidableEq τ] {schema : Schema τ} : t.fitsNow env schema = true ↔ t.LogFits env schema := by
  unfold fitsNow LogFits
  cases t.writer.wal.recover env with
  | error e => simp
  | ok result =>
      obtain ⟨records, wal⟩ := result
      simp only [Except.ok.injEq, Prod.mk.injEq, List.all_eq_true, Option.all_eq_true, decide_eq_true_eq]
      constructor
      · rintro h _ _ ⟨rfl, -⟩
        exact h
      · intro h
        exact h records wal ⟨rfl, rfl⟩

instance [DecidableEq τ] (schema : Schema τ) : Decidable (t.LogFits env schema) := decidable_of_iff _ fitsNow_iff

/-- A write lands under the schema its batches have. -/
def Checked [DecidableEq τ] (t : Table M) (w : Write τ ν) : Prop := t.checkFields w.batches = .ok ()

/-- A schema is committed once the log holds no batch of other types. -/
def Drained (env : Env τ ν) (t : Table M) (after : TableSchema τ) : Prop := t.LogFits env after.schema

/-- The memtable and the log hold batches of the schema in force. -/
structure Typed (env : Env τ ν) (t : Table M) : Prop where
  chunks : ∀ chunk ∈ t.writer.memtable.chunks, chunk.batch.fields = t.schema.schema.fields
  logged : ∃ old fresh, t.Logged env old fresh
  log : t.LogFits env t.schema.schema

theorem Logged.fits_iff {old fresh : List (WalRecord τ ν)} (h : t.Logged env old fresh) {schema : Schema τ} :
    t.LogFits env schema ↔ ∀ record ∈ t.unflushed (old ++ fresh), ∀ data, record.batch? = some data →
      data.columns = schema.types := by
  obtain ⟨wal, hrecover⟩ := h.holds.recover
  constructor
  · intro hfits
    exact hfits _ wal hrecover
  · intro hfits records wal' hother
    obtain ⟨rfl, -⟩ := Prod.mk.inj (Except.ok.inj (hrecover.symm.trans hother))
    exact hfits

/-- An operation that leaves what a reopen replays as it was. -/
theorem Typed.same (h : t.Typed env)
    (hchunks : ∀ chunk ∈ t'.writer.memtable.chunks, chunk.batch.fields = t'.schema.schema.fields)
    (hlog : t.LogFits env t'.schema.schema)
    (hsame : ∀ {old fresh : List (WalRecord τ ν)}, t.Logged env old fresh →
      t'.Logged env old fresh ∧ t'.unflushed (old ++ fresh) = t.unflushed (old ++ fresh)) : t'.Typed env := by
  obtain ⟨old, fresh, hlogged⟩ := h.logged
  obtain ⟨hlogged', hunflushed⟩ := hsame hlogged
  refine ⟨hchunks, ⟨old, fresh, hlogged'⟩, hlogged'.fits_iff.mpr ?_⟩
  rw [hunflushed]
  exact hlogged.fits_iff.mp hlog

/-- An operation that logs batches of the schema in force. -/
theorem Typed.logs (h : t.Typed env) (hschema : t'.schema = t.schema)
    (hchunks : ∀ chunk ∈ t'.writer.memtable.chunks, chunk.batch.fields = t.schema.schema.fields)
    {more : List (WalRecord τ ν)}
    (hmore : ∀ record ∈ more, ∀ data, record.batch? = some data → data.columns = t.schema.schema.types)
    (hsame : ∀ {old fresh : List (WalRecord τ ν)}, t.Logged env old fresh → t'.Logged env old (fresh ++ more) ∧
      t'.unflushed (old ++ (fresh ++ more)) = t.unflushed (old ++ fresh) ++ more) : t'.Typed env := by
  obtain ⟨old, fresh, hlogged⟩ := h.logged
  obtain ⟨hlogged', hunflushed⟩ := hsame hlogged
  refine ⟨hschema ▸ hchunks, ⟨old, fresh ++ more, hlogged'⟩, hlogged'.fits_iff.mpr ?_⟩
  rw [hunflushed, hschema]
  intro record hrecord data hdata
  rcases List.mem_append.mp hrecord with hrecord | hrecord
  · exact hlogged.fits_iff.mp h.log record hrecord data hdata
  · exact hmore record hrecord data hdata

end Table

theorem Memtable.mem_insertAt {env : Env τ ν} {m : Memtable τ ν} {baseSeqno : Nat} {batch : RecordBatch τ ν}
    {chunk : Chunk τ ν} (h : chunk ∈ (m.insertAt env baseSeqno batch).chunks) :
    chunk ∈ m.chunks ∨ chunk = ⟨baseSeqno, batch⟩ := by
  unfold Memtable.insertAt at h
  split at h
  · exact .inl h
  · rcases List.mem_append.mp h with h | h
    · exact .inl h
    · exact .inr (List.mem_singleton.mp h)

/-- What a landed insert holds is one of its batches. -/
theorem planInserts_chunks {env : Env τ ν} {lsn seqno : Nat} {batches : List (RecordBatch τ ν)} {m : Memtable τ ν}
    {chunk : Chunk τ ν} (h : chunk ∈ ((Table.planInserts lsn seqno batches).2.foldl
      (fun memtable (seqno, batch) => memtable.insertAt env seqno batch) m).chunks) :
    chunk ∈ m.chunks ∨ chunk.batch ∈ batches := by
  induction batches generalizing lsn seqno m with
  | nil => exact .inl h
  | cons batch batches ih =>
      rw [planInserts_cons] at h
      split at h
      · exact (ih h).imp id (List.mem_cons_of_mem _)
      · rw [List.foldl_cons] at h
        rcases ih h with h | h
        · rcases Memtable.mem_insertAt h with h | rfl
          · exact .inl h
          · exact .inr List.mem_cons_self
        · exact .inr (List.mem_cons_of_mem _ h)

namespace Table

variable {env : Env τ ν} {t t' : Table M}

/-- The batch an update logs has the fields its replacements have. -/
theorem mergeReplacements_fields [DecidableEq τ] {replacements : List (RecordBatch τ ν)}
    {merged : Option (RecordBatch τ ν)} (hfields : ∀ batch ∈ replacements, batch.fields = t.schema.schema.fields)
    (h : t.mergeReplacements replacements = .ok merged) : ∀ batch ∈ merged, batch.fields = t.schema.schema.fields := by
  unfold mergeReplacements at h
  split at h
  · rw [← Except.ok.inj h]
    simp
  · next batch =>
      rw [← Except.ok.inj h]
      intro other hother
      rw [← Option.some.inj hother]
      exact hfields batch (by simp)
  · obtain ⟨batch, hbatch, h⟩ := bind_eq_ok.mp h
    rw [← Except.ok.inj h]
    intro other hother
    rw [← Option.some.inj hother]
    unfold concatBatches at hbatch
    dsimp only at hbatch
    split at hbatch
    · rw [← Except.ok.inj hbatch]
    · cases hbatch

theorem Typed.appendRows (h : t.Typed env) {batches : List (RecordBatch τ ν)}
    (hfields : ∀ batch ∈ batches, batch.fields = t.schema.schema.fields) (hok : t.appendRows env batches = .ok t') :
    t'.Typed env := by
  have hmore : ∀ record ∈ (planInserts t.writer.nextLsn t.writer.memtable.nextSeqno batches).1, ∀ data,
      record.batch? = some data → data.columns = t.schema.schema.types := by
    intro record hrecord data hdata
    obtain ⟨batch, hbatch, heq⟩ := planInserts_batch hrecord
    rw [← Option.some.inj (heq.symm.trans hdata), encodeBatch, hfields batch hbatch, Schema.types]
  refine h.logs ?_ ?_ hmore fun hlogged => hlogged.appendRows hok
  · obtain ⟨frames, wal, -, -, rfl⟩ := appendRows_ok hok
    rfl
  · obtain ⟨frames, wal, -, -, rfl⟩ := appendRows_ok hok
    intro chunk hchunk
    rcases planInserts_chunks hchunk with hchunk | hchunk
    · exact h.chunks chunk hchunk
    · exact hfields _ hchunk

theorem Typed.replaceRows [DecidableEq τ] (h : t.Typed env) {segmentDeletions : List (SegmentId × List Nat)}
    {memtableSeqnos : List Nat} {replacements : List (RecordBatch τ ν)} {rows : Nat}
    (hfields : ∀ batch ∈ replacements, batch.fields = t.schema.schema.fields)
    (hok : t.replaceRows env segmentDeletions memtableSeqnos replacements = .ok (rows, t')) : t'.Typed env := by
  obtain ⟨planned, -, ⟨rfl, -⟩ | ⟨merged, frame, wal, hmerged, hframe, hwal, rfl⟩⟩ := replaceRows_ok hok
  · exact h
  · rw [applyDeletes_snd]
    have hbatch := mergeReplacements_fields hfields hmerged
    refine h.logs rfl (fun chunk hchunk => ?_) ?_ fun hlogged => hlogged.appendOne rfl hframe hwal rfl rfl
    · dsimp only [publish] at hchunk
      rw [Memtable.delete_snd] at hchunk
      cases merged with
      | none => exact h.chunks chunk hchunk
      | some batch =>
          rcases Memtable.mem_insertAt hchunk with hchunk | rfl
          · exact h.chunks chunk hchunk
          · exact hbatch batch rfl
    · intro record hrecord data hdata
      obtain rfl := List.mem_singleton.mp hrecord
      obtain rfl := Option.some.inj hdata
      cases merged with
      | none => rfl
      | some batch =>
          change batch.fields.map Field.dataType = _
          rw [hbatch batch rfl, Schema.types]

theorem Typed.delete (h : t.Typed env) {segmentDeletions : List (SegmentId × List Nat)} {memtableSeqnos : List Nat}
    {deleted : Nat} (hok : t.delete env segmentDeletions memtableSeqnos = .ok (deleted, t')) : t'.Typed env := by
  rcases delete_ok hok with ⟨rfl, -⟩ | ⟨planned, frame, wal, -, hframe, hwal, ht⟩
  · exact h
  · refine h.logs ?_ ?_ ?_ fun hlogged => hlogged.delete hframe hwal ht
    · rw [ht]
      rfl
    · rw [ht, applyDeletes_snd, Memtable.delete_snd]
      exact h.chunks
    · intro record hrecord data hdata
      rw [List.mem_singleton.mp hrecord] at hdata
      cases hdata

theorem Typed.flushLocked [DecidableEq τ] (h : t.Typed env) {rows : Nat} (hok : t.flushLocked env = .ok (rows, t')) :
    t'.Typed env := by
  rcases flushLocked_ok hok with ⟨-, rfl⟩ | ⟨pending, f, -, hpending, hcommit, ht⟩
  · exact h.same (by simp [frozenWriter, Memtable.freeze]) h.log fun hlogged => hlogged.quiet rfl rfl rfl
  · obtain ⟨old, fresh, hlogged⟩ := h.logged
    have hempty : t'.Logged env [] [] := hlogged.flushed hpending hcommit ht
    refine ⟨?_, ⟨[], [], hempty⟩, hempty.fits_iff.mpr (by simp [unflushed])⟩
    rw [ht]
    simp [rotated, frozenWriter, Memtable.freeze, publish, truncateStage]

theorem Typed.compactLocked [DecidableEq τ] (h : t.Typed env) {rewrite : Rewrite τ ν} {rows : Nat}
    (hok : t.compactLocked env rewrite = .ok (rows, t')) : t'.Typed env := by
  have hsame : t'.writer.memtable = t.writer.memtable ∧ t'.schema = t.schema := by
    rcases compactLocked_ok hok with ⟨-, rfl⟩ | ⟨groups, pending, f, -, -, -, -, rfl⟩
    · exact ⟨rfl, rfl⟩
    · rw [Writer.forgetAll_eq]
      exact ⟨rfl, rfl⟩
  refine h.same ?_ ?_ fun hlogged => hlogged.compactLocked hok
  · rw [hsame.1, hsame.2]
    exact h.chunks
  · rw [hsame.2]
    exact h.log

theorem Typed.deleteSegments (h : t.Typed env) {segmentIds : List SegmentId} {deleted : Nat}
    (hok : t.deleteSegments segmentIds = .ok (deleted, t')) : t'.Typed env := by
  have hsame : t'.writer.memtable = t.writer.memtable ∧ t'.schema = t.schema := by
    rcases deleteSegments_ok hok with ⟨-, rfl⟩ | ⟨-, f, -, rfl⟩
    · rw [Writer.forgetAll_eq]
      exact ⟨rfl, rfl⟩
    · rw [Writer.forgetAll_eq]
      exact ⟨rfl, rfl⟩
  refine h.same ?_ ?_ fun hlogged => hlogged.deleteSegments hok
  · rw [hsame.1, hsame.2]
    exact h.chunks
  · rw [hsame.2]
    exact h.log

theorem Typed.setSchemaLocked [DecidableEq τ] (h : t.Typed env) {before after : TableSchema τ} {rewrite : Bool} {s : Snapshot τ ν}
    (hdrained : t.Drained env after) (hok : t.setSchemaLocked env before after rewrite s = .ok t') : t'.Typed env := by
  obtain ⟨t₁, -, ht⟩ := setSchemaLocked_ok hok
  refine h.same ?_ ?_ fun hlogged => hlogged.setSchemaLocked hok
  · rw [ht]
    simp [adoptSchema, publish, Memtable.new]
  · rw [ht]
    exact hdrained

theorem Typed.step [DecidableEq τ] {c c' : Callers M} (h : c.table.Typed env)
    (hstep : Callers.Step env Checked (Drained env) c c') : c'.table.Typed env := by
  cases hstep with
  | check w _ => exact h
  | land front back w hlanding hok =>
      have hfields := checkFields_ok hlanding
      cases w with
      | insert batches => exact h.appendRows hfields hok
      | update segmentDeletions memtableSeqnos replacements =>
          obtain ⟨⟨rows, t₁⟩, hreplace, hok⟩ := bind_eq_ok.mp hok
          obtain rfl := Except.ok.inj hok
          exact h.replaceRows hfields hreplace
  | delete segmentDeletions memtableSeqnos hok => exact h.delete hok
  | flush hok => exact h.flushLocked hok
  | compact rewrite hok => exact h.compactLocked hok
  | deleteSegments segmentIds hok => exact h.deleteSegments hok
  | change before after rewrite s hdrained hok => exact h.setSchemaLocked hdrained hok
  | pin => exact h.same h.chunks h.log fun hlogged => hlogged.quiet rfl rfl rfl
  | unpin index => exact h.same h.chunks h.log fun hlogged => hlogged.quiet rfl rfl rfl

theorem Typed.run [DecidableEq τ] {c : Callers M} (hrun : Callers.Run env Checked (Drained env) c) : c.table.Typed env := by
  induction hrun with
  | create schema fingerprint newTableUuid h =>
      obtain ⟨file, seed, current, -, hfresh, -, rfl⟩ := create_ok h
      have hlogged : (freshTable file current).Logged env [] [] := .created hfresh current
      exact ⟨by simp [freshTable, Memtable.new], ⟨[], [], hlogged⟩, hlogged.fits_iff.mpr (by simp [unflushed])⟩
  | step _ hstep ih => exact ih.step hstep

/-- What a flush makes of the memtable has the fields of the chunks. -/
theorem fields_batches {m : Memtable τ ν} {fields : List (Field τ)}
    (h : ∀ chunk ∈ m.chunks, chunk.batch.fields = fields) : ∀ batch ∈ m.batches, batch.fields = fields := by
  intro batch hbatch
  obtain ⟨chunk, hchunk, hkept⟩ := List.mem_filterMap.mp hbatch
  unfold Memtable.keptOf at hkept
  dsimp only at hkept
  split at hkept
  · rw [← Option.some.inj hkept]
    exact h chunk hchunk
  · split at hkept
    · cases hkept
    · rw [← Option.some.inj hkept]
      exact h chunk hchunk

theorem Typed.flushes [DecidableEq τ] (h : t.Typed env) {groups : List (List (RecordBatch τ ν))}
    (hgroups : t.rotated.flushGroups env (t.frozen env) = .ok groups) :
    ∀ group ∈ groups, ∀ id, ∃ data, buildSegment env id t.schema group = .ok data := by
  intro group hgroup id
  have hfields := fields_rowGroups (fields_batches h.chunks) hgroups group hgroup
  unfold buildSegment
  dsimp only
  rw [if_pos (by simpa using hfields)]
  exact ⟨_, rfl⟩

theorem Typed.reopens [DecidableEq τ] (h : t.Typed env) : ∃ records wal, t.writer.wal.recover env = .ok (records, wal) ∧
    ∀ record ∈ t.unflushed records, ∀ data, record.batch? = some data → data.columns = t.schema.schema.types ∧
      decodeBatch env data t.schema.schema = .ok ⟨t.schema.schema.fields, data.rows⟩ := by
  obtain ⟨old, fresh, hlogged⟩ := h.logged
  obtain ⟨wal, hrecover⟩ := hlogged.holds.recover
  refine ⟨old ++ fresh, wal, hrecover, fun record hrecord data hdata => ?_⟩
  have hcolumns := h.log _ wal hrecover record hrecord data hdata
  refine ⟨hcolumns, ?_⟩
  have hlength : data.columns.length = t.schema.schema.fields.length := by
    rw [hcolumns, Schema.types, List.length_map]
  rw [Schema.types] at hcolumns
  unfold decodeBatch
  rw [if_neg (not_not_intro hlength), if_pos hcolumns]
  rfl

end Table

/-- No write lands under a stale schema, as long as each lands under the fields it was checked against and each
schema change finds a log it has emptied. Then the memtable and every record a reopen replays have the fields
of the schema in force; the next flush builds segments of them, and the next open decodes them. -/
theorem no_write_under_stale_schema [DecidableEq τ] {env : Env τ ν} {c : Callers M}
    (hrun : Callers.Run env Table.Checked (Table.Drained env) c) :
    (∀ chunk ∈ c.table.writer.memtable.chunks, chunk.batch.fields = c.table.schema.schema.fields) ∧
    (∃ records wal, c.table.writer.wal.recover env = .ok (records, wal) ∧
      ∀ record ∈ c.table.unflushed records, ∀ data, record.batch? = some data →
        data.columns = c.table.schema.schema.types ∧
        decodeBatch env data c.table.schema.schema = .ok ⟨c.table.schema.schema.fields, data.rows⟩) ∧
    ∀ groups, c.table.rotated.flushGroups env (c.table.frozen env) = .ok groups →
      ∀ group ∈ groups, ∀ id, ∃ data, Table.buildSegment env id c.table.schema group = .ok data :=
  have htyped := Table.Typed.run hrun
  ⟨htyped.chunks, htyped.reopens, fun _ hgroups => htyped.flushes hgroups⟩

section Stale

def staleEnv : Env Unit Nat := plainEnv plainOptions [.insert 1 0 ⟨[()], [[7]]⟩, .insert 2 1 ⟨[(), ()], [[8, 9]]⟩]

/-- One row of the one column the plain schema has. -/
def oneRow : Write Unit Nat := .insert [⟨plainSchema.fields, [[7]]⟩]

def newTable : Except Error PlainTable :=
  Table.create staleEnv (Journal plainSizes) plainSchema (fun _ => 0) (fun _ => []) none

def widerSchema : Schema Unit := ⟨plainSchema.fields ++ [⟨"x", (), true⟩], []⟩

/-- One row of the two columns there are then. -/
def widerRow : Write Unit Nat := .insert [⟨widerSchema.fields, [[8, 9]]⟩]

/-- An insert is checked and lands, a flush empties the log for a change of schema, and an insert under the new schema is
checked and lands. -/
def promptRun : Except Error (PlainTable × PlainTable × PlainTable × PlainTable) := do
  let t₀ ← newTable
  t₀.checkFields oneRow.batches
  let t₁ ← oneRow.land staleEnv t₀
  let (_, t₂) ← t₁.flushLocked staleEnv
  let after ← TableSchema.new staleEnv widerSchema
  let t₃ ← t₂.setSchemaLocked staleEnv t₂.schema after false t₂.current
  t₃.checkFields widerRow.batches
  let t ← widerRow.land staleEnv t₃
  return (t₁, t₂, t₃, t)

theorem prompt_write_accepted : ∃ t₁ t₂ t : PlainTable, ¬t₁.LogFits staleEnv widerSchema ∧ t₂.LogFits staleEnv widerSchema ∧
    t.schema.schema = widerSchema ∧ t.writer.memtable.liveRows = 1 ∧
    ∀ groups, t.rotated.flushGroups staleEnv (t.frozen staleEnv) = .ok groups →
      ∀ group ∈ groups, ∀ id, ∃ data, Table.buildSegment staleEnv id t.schema group = .ok data := by
  have hcheck : (match promptRun with
      | .ok (t₁, t₂, _, t) => decide (¬t₁.LogFits staleEnv widerSchema ∧ t₂.LogFits staleEnv widerSchema ∧ t.schema.schema = widerSchema ∧
          t.writer.memtable.liveRows = 1)
      | .error _ => false) = true := by decide +kernel
  cases hrun : promptRun with
  | error e => rw [hrun] at hcheck; cases hcheck
  | ok result =>
      obtain ⟨t₁, t₂, t₃, t⟩ := result
      rw [hrun] at hcheck
      obtain ⟨hfull, hdrained, hschema, hrows⟩ := of_decide_eq_true hcheck
      obtain ⟨t₀, hnew, hrun⟩ := bind_eq_ok.mp hrun
      obtain ⟨_, hfields, hrun⟩ := bind_eq_ok.mp hrun
      obtain ⟨t₁', hland, hrun⟩ := bind_eq_ok.mp hrun
      obtain ⟨⟨rows, t₂'⟩, hflush, hrun⟩ := bind_eq_ok.mp hrun
      obtain ⟨after, hafter, hrun⟩ := bind_eq_ok.mp hrun
      obtain ⟨t₃', hchange, hrun⟩ := bind_eq_ok.mp hrun
      obtain ⟨_, hwider, hrun⟩ := bind_eq_ok.mp hrun
      obtain ⟨t', hland', hrun⟩ := bind_eq_ok.mp hrun
      simp only [pure, Except.pure, Except.ok.injEq, Prod.mk.injEq] at hrun
      obtain ⟨rfl, rfl, rfl, rfl⟩ := hrun
      have hchanged : t₂'.Drained staleEnv after := by
        rw [Table.Drained, (TableSchema.new_schema hafter).1]
        exact hdrained
      refine ⟨t₁', t₂', t', hfull, hdrained, hschema, hrows, ?_⟩
      exact (no_write_under_stale_schema (c := ⟨t', []⟩) (.step (.step (.step (.step (.step (.step (.create _ _ _ hnew)
        (.check oneRow hfields)) (.land [] [] oneRow hfields hland)) (.flush hflush))
        (.change _ _ _ _ hchanged hchange)) (.check widerRow hwider)) (.land [] [] widerRow hwider hland'))).2.2

/-- A column is added between the check and the lock. -/
def staleRun : Except Error (PlainTable × PlainTable × PlainTable) := do
  let t₀ ← newTable
  t₀.checkFields oneRow.batches
  let t₁ ← t₀.addColumn staleEnv ⟨"x", (), true⟩
  let t ← oneRow.land staleEnv t₁
  return (t₀, t₁, t)

/-- The insert passes its check, `add_column` runs to its end, and the insert lands all the same: the memtable
holds a batch without the new column, and the next flush refuses it. -/
theorem stale_write_lands : ∃ t₀ t₁ t : PlainTable, newTable = .ok t₀ ∧ t₀.checkFields oneRow.batches = .ok () ∧
    t₀.addColumn staleEnv ⟨"x", (), true⟩ = .ok t₁ ∧ oneRow.land staleEnv t₁ = .ok t ∧
    Callers.Run staleEnv (fun _ _ => True) (fun _ _ => True) ⟨t, []⟩ ∧
    (¬∀ chunk ∈ t.writer.memtable.chunks, chunk.batch.fields = t.schema.schema.fields) ∧
    ∀ rows t', t.flushLocked staleEnv ≠ .ok (rows, t') := by
  have hcheck : (match staleRun with
      | .ok (_, _, t) => decide ((¬∀ chunk ∈ t.writer.memtable.chunks, chunk.batch.fields = t.schema.schema.fields)) &&
          (match t.flushLocked staleEnv with
            | .ok _ => false
            | .error _ => true)
      | .error _ => false) = true := by decide +kernel
  cases hrun : staleRun with
  | error e => rw [hrun] at hcheck; cases hcheck
  | ok result =>
      obtain ⟨t₀, t₁, t⟩ := result
      rw [hrun] at hcheck
      obtain ⟨hmixed, hrefused⟩ := Bool.and_eq_true_iff.mp hcheck
      obtain ⟨t₀', hnew, hrun⟩ := bind_eq_ok.mp hrun
      obtain ⟨_, hfields, hrun⟩ := bind_eq_ok.mp hrun
      obtain ⟨t₁', hadd, hrun⟩ := bind_eq_ok.mp hrun
      obtain ⟨t', hland, hrun⟩ := bind_eq_ok.mp hrun
      simp only [pure, Except.pure, Except.ok.injEq, Prod.mk.injEq] at hrun
      obtain ⟨rfl, rfl, rfl⟩ := hrun
      refine ⟨t₀', t₁', t', hnew, hfields, hadd, hland, ?_, of_decide_eq_true hmixed, ?_⟩
      · have hchecked : Callers.Run staleEnv (fun _ _ => True) (fun _ _ => True) ⟨t₀', [oneRow]⟩ :=
          .step (.create _ _ _ hnew) (.check oneRow hfields)
        refine .step ?_ (.land [] [] oneRow trivial hland)
        rcases Table.change_ok hadd with ⟨-, rfl⟩ | ⟨schema, rewrite, -, hset⟩
        · exact hchecked
        · obtain ⟨⟨rows, t₂⟩, hflush, hset⟩ := bind_eq_ok.mp hset
          obtain ⟨after, -, hset⟩ := bind_eq_ok.mp hset
          obtain ⟨t₃, hcommit, hset⟩ := bind_eq_ok.mp hset
          obtain rfl := Except.ok.inj hset
          exact .step (.step (.step (.step hchecked (.flush hflush)) .pin) (.change _ _ _ _ trivial hcommit)) (.unpin 0)
      · intro rows t'' hflush
        rw [hflush] at hrefused
        cases hrefused

end Stale

end LocalTables
