import LocalTables.Table.Faults
import LocalTables.Table.Scanned

/-! Calls of many callers at once. A call that reads through a snapshot and takes the writer lock afterwards is two steps,
and anything may come between them; every other call is one. -/

namespace LocalTables

variable {τ ν : Type} {M : Media τ ν}

/-- What a caller is in the middle of, with a snapshot in hand. -/
inductive InFlight (τ ν : Type) where
  | reading
  | compacting (rewrite : Rewrite τ ν)
  | changing (before after : TableSchema τ)

/-- A table and the calls in flight. Each has its snapshot at its own place among the pins. -/
structure Traffic (M : Media τ ν) where
  table : Table M
  inFlight : List (InFlight τ ν)

/-- Where the second half of a compaction may run, and where segments may be dropped. -/
structure Care (M : Media τ ν) where
  rewrites : Table M → Rewrite τ ν → Prop
  drops : Table M → List SegmentId → Prop

/-- Anywhere. -/
def Care.free : Care M := ⟨fun _ _ => True, fun _ _ => True⟩

/-- A compaction finds its segments distinct and listed as it read them, or gives up; its rows fit the order of a clustered
table. A drop that removes no live row finds no deletions to forget. -/
def Care.full : Care M where
  rewrites t rewrite := t.isStale rewrite ∨ rewrite.ids.Nodup ∧
    (∀ entry ∈ rewrite.sources, entry ∈ t.writer.file.committed.manifest.segments) ∧
    FitsCluster t.schema.clusterColumns rewrite.live
  drops t ids := t.droppedRows ids ≠ 0 ∨ t.NoneDeleted ((t.dropped ids).map SegmentEntry.segmentId)

namespace Traffic

/-- One step of one caller. -/
inductive Step [DecidableEq τ] (env : Env τ ν) (care : Care M) : Traffic M → Traffic M → Prop where
  | insert {t t' : Table M} {calls : List (InFlight τ ν)} (batches : List (RecordBatch τ ν)) {rows : Nat}
      (h : t.insertLocked env batches = .ok (rows, t')) : Step env care ⟨t, calls⟩ ⟨t', calls⟩
  | delete {t t' : Table M} {calls : List (InFlight τ ν)} (segmentDeletions : List (SegmentId × List Nat))
      (memtableSeqnos : List Nat) {deleted : Nat} (h : t.delete env segmentDeletions memtableSeqnos = .ok (deleted, t')) :
      Step env care ⟨t, calls⟩ ⟨t', calls⟩
  | update {t t' : Table M} {calls : List (InFlight τ ν)} (segmentDeletions : List (SegmentId × List Nat))
      (memtableSeqnos : List Nat) (replacements : List (RecordBatch τ ν)) {rows : Nat}
      (h : t.updateLocked env segmentDeletions memtableSeqnos replacements = .ok (rows, t')) :
      Step env care ⟨t, calls⟩ ⟨t', calls⟩
  | flush {t t' : Table M} {calls : List (InFlight τ ν)} {rows : Nat} (h : t.flushLocked env = .ok (rows, t')) :
      Step env care ⟨t, calls⟩ ⟨t', calls⟩
  | deleteSegments {t t' : Table M} {calls : List (InFlight τ ν)} (segmentIds : List SegmentId) {deleted : Nat}
      (hcare : care.drops t segmentIds) (h : t.deleteSegments segmentIds = .ok (deleted, t')) :
      Step env care ⟨t, calls⟩ ⟨t', calls⟩
  | take (t : Table M) (calls : List (InFlight τ ν)) : Step env care ⟨t, calls⟩ ⟨t.pin, .reading :: calls⟩
  | drop (t : Table M) {calls : List (InFlight τ ν)} {index : Nat} (hcall : calls[index]? = some .reading) :
      Step env care ⟨t, calls⟩ ⟨t.unpin index, calls.eraseIdx index⟩
  | compactRead {t : Table M} {calls : List (InFlight τ ν)} (ids : List SegmentId) {rewrite : Rewrite τ ν}
      (h : t.pin.compactRead env ids = .ok rewrite) : Step env care ⟨t, calls⟩ ⟨t.pin, .compacting rewrite :: calls⟩
  | compactLocked {t t' : Table M} {calls : List (InFlight τ ν)} {index : Nat} {rewrite : Rewrite τ ν} {rows : Nat}
      (hcall : calls[index]? = some (.compacting rewrite)) (hcare : care.rewrites t rewrite)
      (h : t.compactLocked env rewrite = .ok (rows, t')) : Step env care ⟨t, calls⟩ ⟨t'.unpin index, calls.eraseIdx index⟩
  | capture {t : Table M} {calls : List (InFlight τ ν)} {schema : Schema τ} {after : TableSchema τ}
      (h : TableSchema.new env schema = .ok after) : Step env care ⟨t, calls⟩ ⟨t.pin, .changing t.schema after :: calls⟩
  -- a whole schema change, while nothing but readers is in flight
  | change {t t' : Table M} {calls : List (InFlight τ ν)} (c : Change τ) (hreading : ∀ call ∈ calls, call = .reading)
      (hfits : ∀ schema, c.plan env t.schema.schema = .ok (some (schema, true)) → Table.DeadFit env t schema)
      (h : t.change env c = .ok t') : Step env care ⟨t, calls⟩ ⟨t', calls⟩

/-- Anything that happens to a table that was just created, up to the second half of a compaction or a schema change. -/
inductive Run [DecidableEq τ] (env : Env τ ν) (care : Care M) : Traffic M → Prop where
  | create {t : Table M} (schema : Schema τ) (fingerprint : Schema τ → Nat) (newTableUuid : Extent → List UInt8)
      (h : Table.create env M schema fingerprint newTableUuid none = .ok t) : Run env care ⟨t, []⟩
  | step {u u' : Traffic M} (hrun : Run env care u) (hstep : Step env care u u') : Run env care u'

end Traffic

namespace Table

variable {env : Env τ ν} {t t' : Table M}

/-- What is so of a table under any traffic. -/
structure Sorted (env : Env τ ν) (t : Table M) : Prop where
  laid : t.Laid env
  tidy : t.Tidy
  fresh : t.Fresh

/-- What any call does while it holds the lock. -/
structure Moves (env : Env τ ν) (t t' : Table M) : Prop where
  shifts : t.Shifts t'
  ages : t.Ages t'
  schema : t'.schema = t.schema
  sorted : t'.Sorted env

theorem Sorted.scan (h : t.Sorted env) : ∃ all, scanTable env t.writer.file.io.file t.current = .ok all ∧
    (rowsOf all : Multiset (Row ν)) = t.rows env := by
  have hsynced := h.laid.housed.synced
  refine scan_rows h.tidy hsynced h.fresh ⟨fun entry hentry => ?_, fun entry hentry rows hrows position hposition => ?_⟩
    fun entry hentry => ?_
  · rw [hsynced.manifest] at hentry
    obtain ⟨data, hstores, -⟩ := h.laid.accepted entry hentry
    exact ⟨data, hstores⟩
  · rw [hsynced.manifest] at hentry
    have hsame := h.fresh entry.segmentId
    rw [hrows, Option.getD_some] at hsame
    rw [hsame] at hposition
    cases hdeletes : t.writer.deletes entry.segmentId with
    | none => simp [hdeletes] at hposition
    | some deleted =>
        rw [hdeletes] at hposition
        exact h.tidy.bounded entry hentry deleted hdeletes position hposition
  · have hlisted := List.mem_of_mem_filter hentry
    rw [hsynced.manifest] at hlisted
    obtain ⟨data, hstores, haccepts⟩ := h.laid.accepted entry hlisted
    rw [← h.laid.layout] at haccepts
    exact ⟨data, hstores.reads haccepts⟩

theorem Sorted.moves [DecidableEq τ] (h : t.Sorted env) (hstep : Locked env t t') (hacts : t.Acts t')
    (hfollows : Follows env t t') (hschema : t'.schema = t.schema) (hfresh : t'.Fresh) : t.Moves env t' :=
  ⟨h.laid.housed.shifts_of_acts hacts, hfollows.ages h.tidy, hschema, h.laid.locked hstep hschema, hstep.tidy h.tidy, hfresh⟩

section Moves

variable [DecidableEq τ]

theorem Sorted.insertLocked (h : t.Sorted env) {batches : List (RecordBatch τ ν)} {rows : Nat}
    (hok : t.insertLocked env batches = .ok (rows, t')) : t.Moves env t' := by
  refine h.moves (.insert batches hok) (insertLocked_acts h.laid.housed.synced hok) (.insert batches hok)
    (insertLocked_schema hok) ?_
  rcases (insertLocked_ok hok).2 with ⟨-, rfl⟩ | ⟨-, -, happend⟩
  · exact h.fresh
  · obtain ⟨frames, wal, -, -, rfl⟩ := appendRows_ok happend
    exact fresh_publish _

theorem Sorted.delete (h : t.Sorted env) {segmentDeletions : List (SegmentId × List Nat)} {memtableSeqnos : List Nat}
    {deleted : Nat} (hok : t.delete env segmentDeletions memtableSeqnos = .ok (deleted, t')) : t.Moves env t' := by
  refine h.moves (.delete _ _ hok) (delete_acts h.laid.housed.synced hok) (.delete _ _ hok) (delete_schema hok) ?_
  rcases delete_ok hok with ⟨rfl, -⟩ | ⟨planned, frame, wal, -, -, -, rfl⟩
  · exact h.fresh
  · exact fresh_publish _

theorem Sorted.updateLocked (h : t.Sorted env) {segmentDeletions : List (SegmentId × List Nat)} {memtableSeqnos : List Nat}
    {replacements : List (RecordBatch τ ν)} {rows : Nat}
    (hok : t.updateLocked env segmentDeletions memtableSeqnos replacements = .ok (rows, t')) : t.Moves env t' := by
  refine h.moves (.update _ _ _ hok) (updateLocked_acts h.laid.housed.synced hok) (.update _ _ _ hok)
    (updateLocked_schema hok) ?_
  rcases updateLocked_ok hok with ⟨rfl, -⟩ | ⟨-, hreplace⟩
  · exact h.fresh
  · obtain ⟨planned, -, ⟨rfl, -⟩ | ⟨merged, frame, wal, -, -, -, rfl⟩⟩ := replaceRows_ok hreplace
    · exact h.fresh
    · exact fresh_publish _

theorem Sorted.flushLocked (h : t.Sorted env) {rows : Nat} (hok : t.flushLocked env = .ok (rows, t')) : t.Moves env t' := by
  refine h.moves (.flush hok) (flushLocked_acts h.laid.housed.synced hok) (.flush hok) (flushLocked_schema hok) ?_
  rcases flushLocked_ok hok with ⟨-, rfl⟩ | ⟨pending, f, -, -, -, rfl⟩
  · exact h.fresh.congr rfl rfl
  · exact (fresh_publish _).congr rfl rfl

/-- A drop that forgets deletions of segments it keeps is not among these. -/
theorem Sorted.deleteSegments (h : t.Sorted env) {segmentIds : List SegmentId} {deleted : Nat}
    (hcare : (Care.full : Care M).drops t segmentIds) (hok : t.deleteSegments segmentIds = .ok (deleted, t')) :
    t.Moves env t' := by
  refine h.moves (.deleteSegments _ hok) (deleteSegments_acts h.laid.housed.synced hok) (.deleteSegments _ hcare hok)
    (deleteSegments_schema hok) ?_
  rcases deleteSegments_ok hok with ⟨hzero, rfl⟩ | ⟨-, f, hcommit, rfl⟩
  · have hnone := hcare.resolve_left fun hsome => hsome hzero
    have hsame := forgetAll_of_none hnone t.writer.file.io
    change ({ t with writer := t.writer.forgetAll _ } : Table M) = t at hsame
    rw [hsame]
    exact h.fresh
  · exact fresh_publish _

/-- The second half of a compaction that finds its segments as it read them. -/
theorem Sorted.compactLocked (h : t.Sorted env) {rewrite : Rewrite τ ν} {rows : Nat}
    (hcurrent : rewrite.Current t.writer.file.committed.manifest) (hok : t.compactLocked env rewrite = .ok (rows, t')) :
    t.Moves env t' := by
  have hhoused := h.laid.housed
  have hshifts := hhoused.shifts_of_acts (compactLocked_acts hhoused.synced hhoused.numbered hcurrent hok)
  have hschema := compactLocked_schema hok
  refine ⟨hshifts, compactLocked_ages h.tidy hcurrent.sources hok, hschema, ⟨hhoused.shifts hshifts, ?_, ?_⟩,
    h.tidy.compactLocked hok, ?_⟩
  · rw [hschema]
    exact h.laid.layout
  · rw [hschema]
    exact h.laid.accepted.compactLocked hhoused h.laid.built hcurrent hok
  · rcases compactLocked_ok hok with ⟨-, rfl⟩ | ⟨groups, pending, f, -, -, -, -, rfl⟩
    · exact h.fresh
    · exact fresh_publish _

theorem Sorted.pin (h : t.Sorted env) : t.pin.Sorted env :=
  ⟨h.laid.locked (.pin t) rfl, Locked.tidy (Locked.pin t : Locked env t _) h.tidy, h.fresh.congr rfl rfl⟩

theorem Sorted.unpin (h : t.Sorted env) (index : Nat) : (t.unpin index).Sorted env :=
  ⟨h.laid.locked (.unpin t index) rfl, Locked.tidy (Locked.unpin t index : Locked env t _) h.tidy, h.fresh.congr rfl rfl⟩

/-- A whole schema change leaves the table in order, if the segments it does not rewrite fit the new schema. -/
theorem Sorted.change (h : t.Sorted env) {c : Change τ}
    (hfits : ∀ schema, c.plan env t.schema.schema = .ok (some (schema, true)) → DeadFit env t schema)
    (hok : t.change env c = .ok t') : t'.Sorted env ∧ t'.pins = t.pins := by
  have hlaid := h.laid.change hfits hok
  rcases change_ok hok with ⟨-, rfl⟩ | ⟨schema, rewrite, -, hset⟩
  · exact ⟨h, rfl⟩
  · obtain ⟨⟨rows, t₁⟩, hflush, hset⟩ := bind_eq_ok.mp hset
    obtain ⟨after, -, hset⟩ := bind_eq_ok.mp hset
    obtain ⟨t₂, hlocked, hset⟩ := bind_eq_ok.mp hset
    obtain rfl := Except.ok.inj hset
    have hmoves := h.flushLocked hflush
    have htidy : t₂.Tidy := hmoves.sorted.pin.tidy.setSchemaLocked hlocked
    have hpins : t₂.pins = t₁.current :: t₁.pins := setSchemaLocked_pins hlocked
    -- what readers are shown is taken anew when the schema is adopted
    have hfresh : t₂.Fresh := by
      obtain ⟨t₃, -, rfl⟩ := setSchemaLocked_ok hlocked
      exact fresh_snapshot _ _
    refine ⟨⟨hlaid, Locked.tidy (Locked.unpin t₂ 0 : Locked env t₂ _) htidy, hfresh.congr rfl rfl⟩, ?_⟩
    change t₂.pins.eraseIdx 0 = t.pins
    rw [hpins, List.eraseIdx_cons_zero, hmoves.shifts.pins]

theorem Sorted.created {schema : Schema τ} {fingerprint : Schema τ → Nat} {newTableUuid : Extent → List UInt8}
    (h : Table.create env M schema fingerprint newTableUuid none = .ok t) : t.Sorted env := by
  refine ⟨.created h, Reachable.tidy (.create _ _ _ h), ?_⟩
  obtain ⟨file, seed, current, -, hfresh, hcurrent, rfl⟩ := create_ok h
  exact fun id => rfl

end Moves

/-- What a compaction read at `t₀` knows of the table as it is now. Its rows are those its segments showed then. -/
structure Read (env : Env τ ν) (t₀ t : Table M) (rewrite : Rewrite τ ν) : Prop where
  sorted : t₀.Sorted env
  ages : t₀.Ages t
  snapshot : rewrite.snapshot = t₀.current
  ids : rewrite.sources.map SegmentEntry.segmentId = rewrite.ids
  listed : ∀ entry ∈ rewrite.sources, entry ∈ t₀.current.manifest.segments
  live : rowsOf rewrite.live = rewrite.sources.flatMap fun entry => entry.rowsIn env t.writer.file.io.file t.schema
    ((t₀.current.deletes entry.segmentId).getD ∅)

theorem Read.of_compactRead {ids : List SegmentId} {rewrite : Rewrite τ ν} (h : t.Sorted env)
    (hok : t.compactRead env ids = .ok rewrite) : Read env t t rewrite := by
  have hsynced := h.laid.housed.synced
  refine ⟨h, .refl t, (compactRead_ok hok).2.1, compactRead_sources hok, ?_, (compactRead_live h.tidy hok).1⟩
  rw [hsynced.manifest]
  exact compactRead_listed hsynced hok

/-- Whatever another call does, a compaction's segments keep the bytes it read. -/
theorem Read.moves {t₀ : Table M} {rewrite : Rewrite τ ν} (h : Read env t₀ t rewrite) (hhoused : t.Housed)
    (hpin : rewrite.snapshot ∈ t.pins) (hstep : t.Moves env t') : Read env t₀ t' rewrite := by
  refine ⟨h.sorted, h.ages.trans hstep.ages, h.snapshot, h.ids, h.listed, h.live.trans ?_⟩
  refine List.flatMap_congr fun entry hentry => ?_
  have hmem : entry.data ∈ rewrite.snapshot.manifest.refs := by
    rw [h.snapshot]
    exact Manifest.mem_refs.mpr ⟨entry, h.listed entry hentry, .inl rfl⟩
  rw [hstep.schema]
  exact (SegmentEntry.rowsIn_congr rfl rfl (hhoused.reads hstep.shifts (.inr hpin) hmem _) _).symm

/-- A compaction that is not stale finds the very deletions it read. -/
theorem Read.deletes {t₀ : Table M} {rewrite : Rewrite τ ν} (h : Read env t₀ t rewrite) (hsorted : t.Sorted env)
    (hstale : ¬t.isStale rewrite) {entry : SegmentEntry} (hentry : entry ∈ rewrite.sources)
    (hlisted : entry ∈ t.writer.file.committed.manifest.segments) :
    (t₀.current.deletes entry.segmentId).getD ∅ = (t.writer.deletes entry.segmentId).getD ∅ := by
  have hold : entry ∈ t₀.writer.file.committed.manifest.segments := by
    rw [← h.sorted.laid.housed.synced.manifest]
    exact h.listed entry hentry
  have hcount : ((t.writer.deletes entry.segmentId).getD ∅).card ≤ ((t₀.current.deletes entry.segmentId).getD ∅).card := by
    have hcard : ∀ deletes : SegmentId → Option (Finset Nat),
        deletedIn deletes entry.segmentId = ((deletes entry.segmentId).getD ∅).card := by
      intro deletes
      unfold deletedIn
      cases deletes entry.segmentId <;> rfl
    rw [← hcard, ← hcard, ← h.snapshot]
    by_contra hmore
    refine hstale (List.any_eq_true.mpr ⟨entry, hentry, decide_eq_true ?_⟩)
    omega
  refine Finset.eq_of_subset_of_card_le (fun position hposition => ?_) hcount
  -- a row that was deleted when it was read has not come back
  rw [h.sorted.fresh] at hposition
  by_contra hlive
  have hbounded : position < entry.rowCount := by
    cases hdeletes : t₀.writer.deletes entry.segmentId with
    | none => simp [hdeletes] at hposition
    | some deleted =>
        rw [hdeletes] at hposition
        exact h.sorted.tidy.bounded entry hold deleted hdeletes position hposition
  obtain ⟨_, -, -, hkept⟩ := h.ages.dead (.segment entry.segmentId position)
    (h.sorted.tidy.numbered.below entry hold) ⟨entry, hsorted.tidy.numbered.segment_of_mem hlisted, hbounded, hlive⟩
  exact hkept hposition

/-- The second half of a compaction keeps the rows of the table. -/
theorem Read.rows_compactLocked [DecidableEq τ] {t₀ : Table M} {rewrite : Rewrite τ ν} (h : Read env t₀ t rewrite)
    (hsorted : t.Sorted env) (hcare : (Care.full : Care M).rewrites t rewrite) {rows : Nat}
    (hok : t.compactLocked env rewrite = .ok (rows, t')) : t'.Sorted env ∧ t.Moves env t' ∧ t'.rows env = t.rows env := by
  by_cases hstale : t.isStale rewrite
  · rcases compactLocked_ok hok with ⟨-, rfl⟩ | ⟨_, _, _, hfresh, -⟩
    · exact ⟨hsorted, ⟨⟨.quiet rfl, hsorted.laid.housed.synced, rfl⟩, .refl t', rfl, hsorted⟩, rfl⟩
    · exact absurd hstale hfresh
  · obtain ⟨hnodup, hlisted, hfits⟩ := hcare.resolve_left hstale
    have hcurrent : rewrite.Current t.writer.file.committed.manifest := ⟨hnodup, h.ids, hlisted⟩
    have hmoves := hsorted.compactLocked hcurrent hok
    refine ⟨hmoves.sorted, hmoves, Table.rows_compactLocked hsorted.laid hsorted.tidy hcurrent hfits ?_ hok⟩
    refine h.live.trans (List.flatMap_congr fun entry hentry => ?_)
    rw [rowsOfSegment, h.deletes hsorted hstale hentry (hlisted entry hentry)]

theorem Read.repin {t₀ : Table M} {rewrite : Rewrite τ ν} (h : Read env t₀ t rewrite) (hwriter : t'.writer = t.writer)
    (hschema : t'.schema = t.schema) : Read env t₀ t' rewrite := by
  refine ⟨h.sorted, h.ages.trans ⟨fun id hid => ?_, fun id _ hlive => ?_⟩, h.snapshot, h.ids, h.listed, ?_⟩
  · cases id <;> simpa only [Given, hwriter] using hid
  · cases id <;> simpa only [Live, hwriter] using hlive
  · rw [hwriter, hschema]
    exact h.live

end Table

/-- What a call in flight knows, given the snapshot it holds. -/
def InFlight.Knows (env : Env τ ν) (t : Table M) (s : Snapshot τ ν) : InFlight τ ν → Prop
  | .reading => True
  | .compacting rewrite => rewrite.snapshot = s ∧ ∃ t₀, Table.Read env t₀ t rewrite
  | .changing before after => before = t.schema ∧ after.layout = schemaLayout env after.schema

theorem InFlight.Knows.repin {env : Env τ ν} {t t' : Table M} {call : InFlight τ ν} {s : Snapshot τ ν} (h : call.Knows env t s)
    (hwriter : t'.writer = t.writer) (hschema : t'.schema = t.schema) : call.Knows env t' s := by
  cases call with
  | reading => trivial
  | changing before after => exact ⟨h.1.trans hschema.symm, h.2⟩
  | compacting rewrite =>
      obtain ⟨hs, t₀, hread⟩ := h
      exact ⟨hs, t₀, hread.repin hwriter hschema⟩

namespace Traffic

variable {env : Env τ ν} {t t' : Table M} {calls : List (InFlight τ ν)} {u u' : Traffic M}

/-- The table is in order, and each call in flight knows what it needs. -/
structure Right (env : Env τ ν) (u : Traffic M) : Prop where
  sorted : u.table.Sorted env
  pins : u.table.pins.length = u.inFlight.length
  knows : ∀ (index : Nat) (call : InFlight τ ν) (s : Snapshot τ ν), u.inFlight[index]? = some call →
    u.table.pins[index]? = some s → call.Knows env u.table s

theorem Right.moves (h : Right env ⟨t, calls⟩) (hstep : t.Moves env t') : Right env ⟨t', calls⟩ := by
  refine ⟨hstep.sorted, ?_, fun index call s hcall hs => ?_⟩
  · change t'.pins.length = calls.length
    rw [hstep.shifts.pins]
    exact h.pins
  · change t'.pins[index]? = some s at hs
    rw [hstep.shifts.pins] at hs
    have hknows := h.knows index call s hcall hs
    cases call with
    | reading => trivial
    | changing before after => exact ⟨hknows.1.trans hstep.schema.symm, hknows.2⟩
    | compacting rewrite =>
        obtain ⟨rfl, t₀, hread⟩ := hknows
        exact ⟨rfl, t₀, hread.moves h.sorted.laid.housed (List.mem_of_getElem? hs) hstep⟩

theorem Right.change [DecidableEq τ] (h : Right env ⟨t, calls⟩) (hreading : ∀ call ∈ calls, call = .reading) {c : Change τ}
    (hfits : ∀ schema, c.plan env t.schema.schema = .ok (some (schema, true)) → Table.DeadFit env t schema)
    (hok : t.change env c = .ok t') : Right env ⟨t', calls⟩ := by
  obtain ⟨hsorted, hpins⟩ := h.sorted.change hfits hok
  refine ⟨hsorted, (congrArg List.length hpins).trans h.pins, fun index call s hcall _ => ?_⟩
  rw [hreading call (List.mem_of_getElem? hcall)]
  trivial

theorem Right.take [DecidableEq τ] (h : Right env ⟨t, calls⟩) {call : InFlight τ ν} (hknows : call.Knows env t.pin t.current) :
    Right env ⟨t.pin, call :: calls⟩ := by
  refine ⟨h.sorted.pin, congrArg (· + 1) h.pins, fun index other s hother hs => ?_⟩
  cases index with
  | zero =>
      obtain rfl := Option.some.inj hother
      obtain rfl := Option.some.inj hs
      exact hknows
  | succ index => exact (h.knows index other s hother hs).repin rfl rfl

/-- A call is over, and its snapshot is dropped. -/
theorem Right.finish [DecidableEq τ] (h : Right env ⟨t, calls⟩) (index : Nat) :
    Right env ⟨t.unpin index, calls.eraseIdx index⟩ := by
  refine ⟨h.sorted.unpin index, ?_, fun at_ other s hother hs => ?_⟩
  · change (t.pins.eraseIdx index).length = (calls.eraseIdx index).length
    rw [List.length_eraseIdx, List.length_eraseIdx, show t.pins.length = calls.length from h.pins]
  · change (calls.eraseIdx index)[at_]? = some other at hother
    change (t.pins.eraseIdx index)[at_]? = some s at hs
    rw [List.getElem?_eraseIdx] at hother hs
    split at hother
    · next hlt =>
        rw [if_pos hlt] at hs
        exact (h.knows at_ other s hother hs).repin rfl rfl
    · next hge =>
        rw [if_neg hge] at hs
        exact (h.knows (at_ + 1) other s hother hs).repin rfl rfl

theorem Right.compacting (h : Right env ⟨t, calls⟩) {index : Nat} {rewrite : Rewrite τ ν}
    (hcall : calls[index]? = some (.compacting rewrite)) : ∃ t₀, Table.Read env t₀ t rewrite := by
  obtain ⟨hlt, -⟩ := List.getElem?_eq_some_iff.mp hcall
  have hpin : index < t.pins.length := by
    rw [show t.pins.length = calls.length from h.pins]
    exact hlt
  exact (h.knows index (.compacting rewrite) t.pins[index] hcall (List.getElem?_eq_getElem hpin)).2

theorem Step.right [DecidableEq τ] (hstep : Step env .full u u') (h : Right env u) : Right env u' := by
  cases hstep with
  | insert batches hok => exact h.moves (h.sorted.insertLocked hok)
  | delete segmentDeletions memtableSeqnos hok => exact h.moves (h.sorted.delete hok)
  | update segmentDeletions memtableSeqnos replacements hok => exact h.moves (h.sorted.updateLocked hok)
  | flush hok => exact h.moves (h.sorted.flushLocked hok)
  | deleteSegments segmentIds hcare hok => exact h.moves (h.sorted.deleteSegments hcare hok)
  | take t calls => exact h.take trivial
  | drop t hcall => exact h.finish _
  | compactRead ids hok =>
      have hread := Table.Read.of_compactRead h.sorted.pin hok
      exact h.take ⟨hread.snapshot, _, hread⟩
  | compactLocked hcall hcare hok =>
      obtain ⟨t₀, hread⟩ := h.compacting hcall
      obtain ⟨-, hmoves, -⟩ := hread.rows_compactLocked h.sorted hcare hok
      exact (h.moves hmoves).finish _
  | capture hok =>
      obtain ⟨hschema, hlayout⟩ := TableSchema.new_schema hok
      exact h.take ⟨rfl, by rw [hlayout, hschema]⟩
  | change c hreading hfits hok => exact h.change hreading hfits hok

theorem Run.right [DecidableEq τ] (hrun : Run env .full u) : Right env u := by
  induction hrun with
  | create schema fingerprint newTableUuid h =>
      refine ⟨.created h, ?_, fun index call s hcall => ?_⟩
      · obtain ⟨file, seed, current, -, hfresh, hcurrent, rfl⟩ := Table.create_ok h
        rfl
      · cases hcall
  | step _ hstep ih => exact hstep.right ih

/-- Compactions among other calls. Whatever runs between the two halves of each, as long as every second half finds its
segments as it read them or gives up, it leaves readers the rows they had. -/
theorem compactions_keep_rows [DecidableEq τ] (hrun : Run env .full u) {index : Nat} {rewrite : Rewrite τ ν}
    (hcall : u.inFlight[index]? = some (.compacting rewrite)) (hcare : (Care.full : Care M).rewrites u.table rewrite)
    {rows : Nat} {t' : Table M} (hok : u.table.compactLocked env rewrite = .ok (rows, t')) :
    ∃ before after, scanTable env u.table.writer.file.io.file u.table.current = .ok before ∧
      scanTable env t'.writer.file.io.file t'.current = .ok after ∧ (rowsOf after).Perm (rowsOf before) := by
  have hright := hrun.right
  obtain ⟨t₀, hread⟩ := hright.compacting hcall
  obtain ⟨hsorted, -, hrows⟩ := hread.rows_compactLocked hright.sorted hcare hok
  obtain ⟨before, hbefore, hheld⟩ := hright.sorted.scan
  obtain ⟨after, hafter, hleft⟩ := hsorted.scan
  refine ⟨before, after, hbefore, hafter, Multiset.coe_eq_coe.mp ?_⟩
  calc (rowsOf after : Multiset (Row ν)) = t'.rows env := hleft
    _ = u.table.rows env := hrows
    _ = rowsOf before := hheld.symm

section Doubled

open Table

/-- The rows readers of a table are shown. -/
def readerRows (env : Env Unit Nat) (t : PlainTable) : Option (List (Row Nat)) :=
  match scanTable env t.writer.file.io.file t.current with
  | .ok batches => some (rowsOf batches)
  | .error _ => none

theorem readerRows_eq_some {env : Env Unit Nat} {t : PlainTable} {rows : List (Row Nat)} (h : readerRows env t = some rows) :
    ∃ batches, scanTable env t.writer.file.io.file t.current = .ok batches ∧ rowsOf batches = rows := by
  unfold readerRows at h
  split at h
  · next batches hscan => exact ⟨batches, hscan, Option.some.inj h⟩
  · cases h

/-- One of two rows is deleted, and a third comes in between the halves of a compaction. -/
def insertBetween : Except Error (Rewrite Unit Nat × PlainTable × Nat × PlainTable) := do
  let t ← deletedTable [(0, [0])]
  let rewrite ← t.pin.compactRead faultEnv [0]
  let (_, between) ← t.pin.insertLocked faultEnv [⟨plainSchema.fields, [[9]]⟩]
  let (rows, t') ← between.compactLocked faultEnv rewrite
  return (rewrite, between, rows, t')

/-- Two compactions read one segment before either takes the lock. -/
def readTwice : Except Error (Rewrite Unit Nat × PlainTable × PlainTable) := do
  let t ← deletedTable []
  let first ← t.pin.compactRead faultEnv [0]
  let second ← t.pin.pin.compactRead faultEnv [0]
  let (_, between) ← t.pin.pin.compactLocked faultEnv second
  let (_, t') ← (between.unpin 0).compactLocked faultEnv first
  return (first, between.unpin 0, t')

theorem deletedTable_run {care : Care (Journal plainSizes)} {deletions : List (SegmentId × List Nat)} {t : PlainTable}
    (h : deletedTable deletions = .ok t) : Run faultEnv care ⟨t, []⟩ := by
  obtain ⟨t₀, hcreate, h⟩ := bind_eq_ok.mp h
  obtain ⟨⟨_, t₁⟩, hinsert, h⟩ := bind_eq_ok.mp h
  obtain ⟨⟨_, t₂⟩, hflush, h⟩ := bind_eq_ok.mp h
  obtain ⟨⟨_, t₃⟩, hdelete, h⟩ := bind_eq_ok.mp h
  obtain rfl := Except.ok.inj h
  exact .step (.step (.step (.create _ _ _ hcreate) (.insert _ hinsert)) (.flush hflush)) (.delete _ _ hdelete)

theorem insertBetween_run {rewrite : Rewrite Unit Nat} {t t' : PlainTable} {rows : Nat}
    (h : insertBetween = .ok (rewrite, t, rows, t')) : Run faultEnv .full ⟨t, [.compacting rewrite]⟩ ∧
      t.compactLocked faultEnv rewrite = .ok (rows, t') := by
  obtain ⟨t₁, htable, h⟩ := bind_eq_ok.mp h
  obtain ⟨read, hread, h⟩ := bind_eq_ok.mp h
  obtain ⟨⟨_, t₂⟩, hinsert, h⟩ := bind_eq_ok.mp h
  obtain ⟨⟨written, t₃⟩, hlocked, h⟩ := bind_eq_ok.mp h
  simp only [pure, Except.pure, Except.ok.injEq, Prod.mk.injEq] at h
  obtain ⟨rfl, rfl, rfl, rfl⟩ := h
  exact ⟨.step (.step (deletedTable_run htable) (.compactRead _ hread)) (.insert _ hinsert), hlocked⟩

theorem readTwice_run {rewrite : Rewrite Unit Nat} {t t' : PlainTable} (h : readTwice = .ok (rewrite, t, t')) :
    Run faultEnv .free ⟨t, [.compacting rewrite]⟩ ∧ ∃ rows, t.compactLocked faultEnv rewrite = .ok (rows, t') := by
  obtain ⟨t₁, htable, h⟩ := bind_eq_ok.mp h
  obtain ⟨first, hfirst, h⟩ := bind_eq_ok.mp h
  obtain ⟨second, hsecond, h⟩ := bind_eq_ok.mp h
  obtain ⟨⟨_, t₂⟩, hlocked, h⟩ := bind_eq_ok.mp h
  obtain ⟨⟨rows, t₃⟩, hagain, h⟩ := bind_eq_ok.mp h
  simp only [pure, Except.pure, Except.ok.injEq, Prod.mk.injEq] at h
  obtain ⟨rfl, rfl, rfl⟩ := h
  have hboth : Run faultEnv .free ⟨t₁.pin.pin, [.compacting second, .compacting first]⟩ :=
    .step (.step (deletedTable_run htable) (.compactRead _ hfirst)) (.compactRead _ hsecond)
  exact ⟨hboth.step (.compactLocked rfl trivial hlocked), rows, hagain⟩

theorem compaction_around_an_insert : ∃ (u : Traffic (Journal plainSizes)) (rewrite : Rewrite Unit Nat) (t' : PlainTable),
    u.table.compactLocked faultEnv rewrite = .ok (1, t') ∧
      ∃ before after, scanTable faultEnv u.table.writer.file.io.file u.table.current = .ok before ∧
        scanTable faultEnv t'.writer.file.io.file t'.current = .ok after ∧ (rowsOf after).Perm (rowsOf before) := by
  have hcheck : (match insertBetween with
      | .ok (rewrite, t, rows, _) => decide (rewrite.ids = [0] ∧ rows = 1 ∧
          (∀ entry ∈ rewrite.sources, entry ∈ t.writer.file.committed.manifest.segments) ∧ t.schema.clusterColumns = [])
      | .error _ => false) = true := by decide +kernel
  cases hrun : insertBetween with
  | error e =>
      rw [hrun] at hcheck
      cases hcheck
  | ok result =>
      obtain ⟨rewrite, t, rows, t'⟩ := result
      rw [hrun] at hcheck
      obtain ⟨hids, rfl, hlisted, hcluster⟩ := of_decide_eq_true hcheck
      obtain ⟨hsteps, hlocked⟩ := insertBetween_run hrun
      have hcall : [InFlight.compacting rewrite][0]? = some (.compacting rewrite) := rfl
      have hcare : (Care.full : Care (Journal plainSizes)).rewrites t rewrite :=
        .inr ⟨hids ▸ List.nodup_singleton 0, hlisted, .inl hcluster⟩
      exact ⟨⟨t, [.compacting rewrite]⟩, rewrite, t', hlocked, compactions_keep_rows hsteps hcall hcare hlocked⟩

/-- The second of two compactions of one segment writes its rows once more. -/
theorem second_compaction_doubles_rows : ∃ (u : Traffic (Journal plainSizes)) (rewrite : Rewrite Unit Nat) (t' : PlainTable)
    (rows : Nat) (before after : List (RecordBatch Unit Nat)), Run faultEnv .free u ∧
      u.inFlight[0]? = some (.compacting rewrite) ∧ u.table.compactLocked faultEnv rewrite = .ok (rows, t') ∧
      scanTable faultEnv u.table.writer.file.io.file u.table.current = .ok before ∧
      scanTable faultEnv t'.writer.file.io.file t'.current = .ok after ∧
      rowsOf before = [[7], [8]] ∧ rowsOf after = [[7], [8], [7], [8]] := by
  have hcheck : (match readTwice with
      | .ok (_, t, t') => decide (readerRows faultEnv t = some [[7], [8]] ∧ readerRows faultEnv t' = some [[7], [8], [7], [8]])
      | .error _ => false) = true := by decide +kernel
  cases hrun : readTwice with
  | error e =>
      rw [hrun] at hcheck
      cases hcheck
  | ok result =>
      obtain ⟨rewrite, t, t'⟩ := result
      rw [hrun] at hcheck
      obtain ⟨hbefore, hafter⟩ := of_decide_eq_true hcheck
      obtain ⟨before, hscan, hshown⟩ := readerRows_eq_some hbefore
      obtain ⟨after, hscan', hshown'⟩ := readerRows_eq_some hafter
      obtain ⟨hsteps, rows, hlocked⟩ := readTwice_run hrun
      exact ⟨⟨t, [.compacting rewrite]⟩, rewrite, t', rows, before, after, hsteps, rfl, hlocked, hscan, hscan', hshown, hshown'⟩

end Doubled

end Traffic

end LocalTables
