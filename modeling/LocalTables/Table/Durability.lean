import LocalTables.Lib.Bag
import LocalTables.Table.Addresses
import LocalTables.Table.Columns
import LocalTables.Table.Crashes
import LocalTables.Table.Runs

/-! What users of a table are promised across crashes. A table that is written to, flushed, compacted, read, and cut off in
any of these at any point, is a bag of rows at addresses: what a call returned for stays, and a call that was cut off has
done its first updates or none. -/

namespace LocalTables

variable {τ ν : Type} {M : Media τ ν}

namespace Table

variable {env : Env τ ν} {t t' t₁ : Table M} {old fresh : List (WalRecord τ ν)}

/-- Whether all that the log not being appended to still holds is in the file. -/
def spent (env : Env τ ν) (t : Table M) : Bool :=
  match (t.writer.wal.file (!t.writer.wal.active)).recover env with
  | .ok (log, _) => log.records.all fun record => record.lsn ≤ t.checkpoint
  | .error _ => true

theorem Logged.unflushed_of_spent (h : t.Logged env old fresh) (hspent : t.spent env) : t.unflushed old = [] := by
  have hretired := h.holds.retired
  obtain ⟨log, f, hrecover, -, hrecords, -⟩ := WalFile.recover_torn hretired.framed.torn hretired.header hretired.len
  unfold spent at hspent
  rw [hrecover] at hspent
  subst hrecords
  apply List.filter_eq_nil_iff.mpr
  intro record hrecord
  have hfolded := of_decide_eq_true (List.all_eq_true.mp hspent record hrecord)
  simpa using hfolded

section Crash

variable [DecidableEq τ]

/-- A crash, with what it comes to, and what it leaves of the file and of the logs: between two calls, inside one that
writes to the log, inside a flush once it appends to the other log, inside the last step of a flush, where the file has the
new commit and the old log is not yet cut back, or inside a compaction or a drop of segments. -/
inductive Crash (env : Env τ ν) (t : Table M) : Bag.Event RowId (Row ν) → M.File → LogFile → LogFile → Prop where
  | idle : Crash env t (.done []) t.writer.file.io.file t.writer.wal.a.disk t.writer.wal.b.disk
  | append {us : List (Bag.Update RowId (Row ν))} {t' : Table M} (hwrites : t.Writes env us t') {good : Nat}
      (hgood : (t.writer.wal.file t.writer.wal.active).len ≤ good) :
      Crash env t (.torn us) t.writer.file.io.file (t'.writer.wal.cutTo t.writer.wal.active good).a.disk
        (t'.writer.wal.cutTo t.writer.wal.active good).b.disk
  | flush {rows : Nat} {t' : Table M} {left : M.File}
      (hsorts : SortsIn t.schema.clusterColumns (t.writer.memtable.live.map Prod.snd)) (hspent : t.spent env)
      (hsome : ¬(t.frozen env).isEmpty) (hok : t.flushLocked env = .ok (rows, t')) (hcut : t.CutShort t' left) :
      Crash env t .moved left t.writer.wal.rotate.2.a.disk t.writer.wal.rotate.2.b.disk
  | flushed {rows : Nat} {t' : Table M}
      (hsorts : SortsIn t.schema.clusterColumns (t.writer.memtable.live.map Prod.snd))
      (hsome : ¬(t.frozen env).isEmpty) (hok : t.flushLocked env = .ok (rows, t')) :
      Crash env t .moved t'.writer.file.io.file t.writer.wal.rotate.2.a.disk t.writer.wal.rotate.2.b.disk
  | compact {ids : List SegmentId} {rewrite : Rewrite τ ν} {rows : Nat} {t' : Table M} {left : M.File} (hids : ids.Nodup)
      (hread : t.compactRead env ids = .ok rewrite) (hfits : t.Fits ids)
      (hok : t.compactLocked env rewrite = .ok (rows, t')) (hcut : t.CutShort t' left) :
      Crash env t .moved left t.writer.wal.a.disk t.writer.wal.b.disk
  | deleteSegments {segmentIds : List SegmentId} {deleted : Nat} {t' : Table M} {left : M.File}
      (hsafe : t.DropsSafely segmentIds) (hok : t.deleteSegments segmentIds = .ok (deleted, t'))
      (hcut : t.CutShort t' left) :
      Crash env t (.torn [dropUpdate segmentIds]) left t.writer.wal.a.disk t.writer.wal.b.disk

/-- What an event does to a table: to its rows what the event says, and to their addresses nothing that was not to be. -/
structure Leads (env : Env τ ν) (t : Table M) (event : Bag.Event RowId (Row ν)) (t' : Table M) : Prop where
  allows : event.Allows (t.held env) (t'.held env)
  keeps : t.Keeps env t'

namespace Leads

omit [DecidableEq τ]

variable {event : Bag.Event RowId (Row ν)}

theorem resumed (h : t.Leads env event t₁) (hresumes : t₁.Resumes env t') : t.Leads env event t' :=
  ⟨hresumes.held ▸ h.allows, h.keeps.trans (.resumed hresumes)⟩

theorem of_resumes (h : t.Resumes env t') (hsame : event.Allows (t.held env) (t.held env)) : t.Leads env event t' :=
  ⟨h.held ▸ hsame, .resumed h⟩

theorem of_rows (hrows : t'.rows env = t.rows env) (hkeeps : t.Keeps env t') : t.Leads env .moved t' := by
  refine ⟨?_, hkeeps⟩
  change (t'.held env).map Prod.snd = (t.held env).map Prod.snd
  rw [map_held, map_held, hrows]

end Leads

theorem Durable.leads_flushLocked (h : t.Durable env old fresh) {rows : Nat}
    (hsorts : SortsIn t.schema.clusterColumns (t.writer.memtable.live.map Prod.snd))
    (hok : t.flushLocked env = .ok (rows, t')) : t.Leads env .moved t' :=
  .of_rows (rows_flushLocked h.whole hsorts hok).1 (.flushLocked h.whole hok)

theorem Durable.leads_compactLocked (h : t.Durable env old fresh) {ids : List SegmentId} {rewrite : Rewrite τ ν} {rows : Nat}
    (hids : ids.Nodup) (hread : t.compactRead env ids = .ok rewrite) (hfits : t.Fits ids)
    (hok : t.compactLocked env rewrite = .ok (rows, t')) : t.Leads env .moved t' :=
  .of_rows ((compactLocked_keeps h.whole hids hread hok).2.1.mpr hfits) (.compactLocked h.whole h.saved hids hread hok)

theorem Durable.committed (h : t.Durable env old fresh) {rows : Nat} (hsome : ¬(t.frozen env).isEmpty)
    (hok : t.flushLocked env = .ok (rows, t')) :
    t'.Durable env [] [] ∧ t'.unflushed fresh = [] := by
  obtain ⟨hempty, -⟩ | ⟨pending, f, -, hpending, hcommit, ht⟩ := flushLocked_ok hok
  · exact absurd hempty hsome
  · refine ⟨h.flushed hpending hcommit hok ht, ?_⟩
    obtain ⟨hcheckpoint, -⟩ := flushed_checkpoint (t := t.rotated) hpending hcommit
    have hpoint : t'.checkpoint = t.writer.nextLsn - 1 := by
      subst ht
      exact hcheckpoint
    apply List.filter_eq_nil_iff.mpr
    intro record hrecord
    have hbelow : record.lsn ≤ t.writer.nextLsn - 1 :=
      Nat.le_sub_one_of_lt (h.logged.below record (List.mem_append_right _ hrecord))
    rw [hpoint]
    simpa using hbelow

/-- What is in the file once a flush has committed, with the logs as they were before it emptied the old one. -/
theorem Durable.recovers_flushed (h : t.Durable env old fresh) {rows : Nat} {left : M.File}
    (hsorts : SortsIn t.schema.clusterColumns (t.writer.memtable.live.map Prod.snd)) (hsome : ¬(t.frozen env).isEmpty)
    (hok : t.flushLocked env = .ok (rows, t')) (hleft : t'.Left left) :
    ∃ t₂, replayed env left t.writer.wal.rotate.2.a.disk t.writer.wal.rotate.2.b.disk = .ok t₂ ∧
      t₂.Durable env fresh [] ∧ t.Leads env .moved t₂ ∧ t₂.schema = t.schema := by
  obtain ⟨hdurable, hnone⟩ := h.committed hsome hok
  have hheader := ((flushLocked_acts h.kept.synced hok).readSchema h.kept).1
  have hlogs := h.logged.holds.rotate.1.crashed h.owned.rotate
  rw [← hheader] at hlogs
  have hsame : t'.unflushed (fresh ++ []) = t'.unflushed ([] ++ []) := by
    rw [List.append_nil, hnone]
    rfl
  obtain ⟨t₂, hopen, hdurable₂, hresumes⟩ := hdurable.reopens hleft hlogs hsame
  exact ⟨t₂, hopen, hdurable₂, (h.leads_flushLocked hsorts hok).resumed hresumes,
    hresumes.schema.trans (flushLocked_schema hok)⟩

/-- Whatever a crash leaves opens again, to a table as durable as before, to which the event has led. -/
theorem Crash.recovers (h : t.Durable env old fresh) {event : Bag.Event RowId (Row ν)} {left : M.File} {a b : LogFile}
    (hcrash : t.Crash env event left a b) :
    ∃ t' old' fresh', replayed env left a b = .ok t' ∧ t'.Durable env old' fresh' ∧ t.Leads env event t' ∧
      t'.schema = t.schema := by
  have hlogs := h.logged.holds.crashed h.owned
  cases hcrash with
  | idle =>
      obtain ⟨t', hopen, hdurable, hresumes⟩ := h.reopens (.whole h.kept) hlogs rfl
      exact ⟨t', old, fresh, hopen, hdurable, .of_resumes hresumes rfl, hresumes.schema⟩
  | append hwrites hgood =>
      obtain ⟨more, hrecord⟩ := hwrites.recorded h
      obtain ⟨frames, hframes, hwal⟩ := hrecord.appends.framed
      obtain ⟨whole, hwhole, hcrashed⟩ := h.logged.holds.crashed_append h.owned hframes
        hrecord.appends.durable.logged.holds.rising hwal hgood
      obtain ⟨front, t₂, hfront, happends, hheld⟩ := hrecord.front whole hwhole
      rw [← happends.file] at hcrashed ⊢
      obtain ⟨t', hopen, hdurable, hresumes⟩ := happends.durable.reopens (.whole happends.durable.kept) hcrashed rfl
      have hleads : t.Leads env (.torn _) t₂ :=
        ⟨⟨front, hfront, hheld⟩, .appends happends hheld fun u hu => hwrites.added u (hfront.subset hu)⟩
      exact ⟨t', old, fresh ++ whole, hopen, hdurable, hleads.resumed hresumes, hresumes.schema.trans happends.schema⟩
  | flush hsorts hspent hsome hok hcut =>
      rcases hcut.leaves h.kept (flushLocked_acts h.kept.synced hok) with hleft | hleft
      · have hcrashed := h.logged.holds.rotate.1.crashed h.owned.rotate
        have hsame : t.unflushed (fresh ++ []) = t.unflushed (old ++ fresh) := by
          rw [List.append_nil, unflushed_append, h.logged.unflushed_of_spent hspent, List.nil_append]
        obtain ⟨t', hopen, hdurable, hresumes⟩ := h.reopens hleft hcrashed hsame
        exact ⟨t', fresh, [], hopen, hdurable, .of_resumes hresumes rfl, hresumes.schema⟩
      · obtain ⟨t', hopen, hdurable, hleads, hschema⟩ := h.recovers_flushed hsorts hsome hok hleft
        exact ⟨t', fresh, [], hopen, hdurable, hleads, hschema⟩
  | flushed hsorts hsome hok =>
      have hkept := (h.committed hsome hok).1.kept
      obtain ⟨t', hopen, hdurable, hleads, hschema⟩ := h.recovers_flushed hsorts hsome hok (.whole hkept)
      exact ⟨t', fresh, [], hopen, hdurable, hleads, hschema⟩
  | @compact ids rewrite rows t₁ _ hids hread hfits hok hcut =>
      have hacts := compactLocked_acts h.kept.synced h.kept.numbered (compactRead_current h.kept.synced hids hread) hok
      rcases hcut.leaves h.kept hacts with hleft | hleft
      · obtain ⟨t', hopen, hdurable, hresumes⟩ := h.reopens hleft hlogs rfl
        exact ⟨t', old, fresh, hopen, hdurable, .of_resumes hresumes rfl, hresumes.schema⟩
      · have hdone := h.compactLocked hids hread hok
        rw [← (hacts.readSchema h.kept).1] at hlogs
        obtain ⟨t', hopen, hdurable, hresumes⟩ := hdone.reopens hleft hlogs rfl
        exact ⟨t', old, fresh, hopen, hdurable, (h.leads_compactLocked hids hread hfits hok).resumed hresumes,
          hresumes.schema.trans (compactLocked_schema hok)⟩
  | @deleteSegments segmentIds deleted t₁ _ hsafe hok hcut =>
      have hacts := deleteSegments_acts h.kept.synced hok
      rcases hcut.leaves h.kept hacts with hleft | hleft
      · obtain ⟨t', hopen, hdurable, hresumes⟩ := h.reopens hleft hlogs rfl
        exact ⟨t', old, fresh, hopen, hdurable, .of_resumes hresumes (.untouched _ _), hresumes.schema⟩
      · have hdone := h.deleteSegments hsafe hok
        rw [← (hacts.readSchema h.kept).1] at hlogs
        obtain ⟨t', hopen, hdurable, hresumes⟩ := hdone.reopens hleft hlogs rfl
        have hleads : t.Leads env (.torn [dropUpdate segmentIds]) t₁ :=
          ⟨Bag.Event.Allows.whole (held_deleteSegments h.whole hsafe hok), .deleteSegments h.whole hsafe hok⟩
        exact ⟨t', old, fresh, hopen, hdurable, hleads.resumed hresumes, hresumes.schema.trans (deleteSegments_schema hok)⟩

end Crash

section Reads

variable [DecidableEq τ]

theorem Durable.opens (h : t.Durable env old fresh) {entry : SegmentEntry}
    (hentry : entry ∈ t.writer.file.committed.manifest.segments) :
    ∃ data, segmentReader t.writer.file.io.file entry t.schema.layout = .ok data ∧ data.rows.length = entry.rowCount := by
  obtain ⟨data, hstores, haccepts, -⟩ := h.accepted entry hentry
  rw [← h.whole.layout] at haccepts
  exact ⟨data, hstores.reads haccepts, hstores.rows⟩

theorem Durable.liveRows (h : t.Durable env old fresh) : t.current.liveRows = (t.rows env).card := by
  have hsegment : ∀ entry ∈ t.current.manifest.segments,
      t.current.liveRowsIn entry = (t.rowsOfSegment env entry).length := by
    intro entry hentry
    obtain ⟨data, hdata, -⟩ := h.opens (h.kept.synced.manifest ▸ hentry)
    rw [rowsOfSegment, SegmentEntry.rowsIn_eq hdata, List.length_map, ← h.whole.fresh]
    exact (h.whole.counted.length_live hentry (segmentReader_ok hdata).1).symm
  have hsegments : (t.current.manifest.segments.map t.current.liveRowsIn).sum =
      (t.writer.file.committed.manifest.segments.flatMap (t.rowsOfSegment env)).length := by
    rw [List.length_flatMap, ← h.kept.synced.manifest]
    exact congrArg List.sum (List.map_congr_left hsegment)
  have hmemtable : t.current.memtableRows = (t.writer.memtable.live.map Prod.snd).length := by
    rw [Snapshot.memtableRows, ← length_rowsOf, h.whole.tidy.shown]
  calc t.current.liveRows
      = (t.current.manifest.segments.map t.current.liveRowsIn).sum + t.current.memtableRows := rfl
    _ = (t.writer.file.committed.manifest.segments.flatMap (t.rowsOfSegment env)).length +
          (t.writer.memtable.live.map Prod.snd).length := by rw [hsegments, hmemtable]
    _ = (t.rows env).card := by rw [rows, Multiset.card_add, Multiset.coe_card, Multiset.coe_card]

theorem Durable.scanned (h : t.Durable env old fresh) :
    ∃ all, scanTable env t.writer.file.io.file t.current = .ok all ∧ (rowsOf all : Multiset (Row ν)) = t.rows env := by
  apply scan_rows h.whole.tidy h.kept.synced h.whole.fresh h.whole.counted
  intro entry hentry
  obtain ⟨data, hdata, -⟩ := h.opens (h.kept.synced.manifest ▸ List.mem_of_mem_filter hentry)
  exact ⟨data, hdata⟩

end Reads

section Runs

variable [DecidableEq τ]

/-- A table that was just made. -/
def IsNew (env : Env τ ν) (t : Table M) : Prop :=
  ∃ schema fingerprint newTableUuid, Table.create env M schema fingerprint newTableUuid none = .ok t

/-- What happens to a table: a call, housekeeping, a reader that comes or goes, or a crash after which it is opened again. -/
inductive Happens (env : Env τ ν) : Table M → Bag.Event RowId (Row ν) → Table M → Prop where
  | write {t t' : Table M} {us : List (Bag.Update RowId (Row ν))} (hwrites : t.Writes env us t') : Happens env t (.done us) t'
  | flush {t t' : Table M} {rows : Nat}
      (hsorts : SortsIn t.schema.clusterColumns (t.writer.memtable.live.map Prod.snd))
      (hok : t.flushLocked env = .ok (rows, t')) : Happens env t .moved t'
  | compact {t t' : Table M} {ids : List SegmentId} {rewrite : Rewrite τ ν} {rows : Nat} (hids : ids.Nodup)
      (hread : t.compactRead env ids = .ok rewrite) (hfits : t.Fits ids)
      (hok : t.compactLocked env rewrite = .ok (rows, t')) : Happens env t .moved t'
  | deleteSegments {t t' : Table M} {segmentIds : List SegmentId} {deleted : Nat} (hsafe : t.DropsSafely segmentIds)
      (hok : t.deleteSegments segmentIds = .ok (deleted, t')) : Happens env t (.done [dropUpdate segmentIds]) t'
  | pin (t : Table M) : Happens env t (.done []) t.pin
  | unpin (t : Table M) (index : Nat) : Happens env t (.done []) (t.unpin index)
  | crash {t t' : Table M} {event : Bag.Event RowId (Row ν)} {left : M.File} {a b : LogFile}
      (hcrash : t.Crash env event left a b) (hopen : replayed env left a b = .ok t') : Happens env t event t'

/-- Every step keeps a table durable, and does what the event says. -/
theorem Happens.durable (h : t.Durable env old fresh) {event : Bag.Event RowId (Row ν)} (hstep : Happens env t event t') :
    (∃ old' fresh', t'.Durable env old' fresh') ∧ t.Leads env event t' := by
  cases hstep with
  | write hwrites =>
      obtain ⟨more, hrecord⟩ := hwrites.recorded h
      exact ⟨⟨old, fresh ++ more, hrecord.appends.durable⟩, hrecord.held, .appends hrecord.appends hrecord.held hwrites.added⟩
  | flush hsorts hok =>
      refine ⟨?_, h.leads_flushLocked hsorts hok⟩
      rcases h.flushLocked hok with hsame | hnone
      · exact ⟨old, fresh, hsame⟩
      · exact ⟨[], [], hnone⟩
  | compact hids hread hfits hok =>
      exact ⟨⟨old, fresh, h.compactLocked hids hread hok⟩, h.leads_compactLocked hids hread hfits hok⟩
  | deleteSegments hsafe hok =>
      exact ⟨⟨old, fresh, h.deleteSegments hsafe hok⟩, held_deleteSegments h.whole hsafe hok,
        .deleteSegments h.whole hsafe hok⟩
  | pin => exact ⟨⟨old, fresh, h.pin⟩, rfl, .of_held le_rfl le_rfl rfl⟩
  | unpin index => exact ⟨⟨old, fresh, h.unpin index⟩, rfl, .of_held le_rfl le_rfl rfl⟩
  | crash hcrash hopen =>
      obtain ⟨t₂, old', fresh', hopen', hdurable, hleads, -⟩ := hcrash.recovers h
      obtain rfl := Except.ok.inj (hopen'.symm.trans hopen)
      exact ⟨⟨old', fresh', hdurable⟩, hleads⟩

theorem IsNew.durable (h : t.IsNew env) : t.Durable env [] [] ∧ t.held env = 0 := by
  obtain ⟨schema, fingerprint, newTableUuid, hcreate⟩ := h
  refine ⟨.created hcreate, ?_⟩
  obtain ⟨file, seed, current, -, hfresh, -, rfl⟩ := create_ok hcreate
  have hsegments : file.committed.manifest.segments = [] := by
    rw [hfresh.manifest]
    rfl
  have hnone : (freshTable file current).writer.file.committed.manifest.segments = [] := hsegments
  unfold held
  rw [hnone]
  rfl

theorem run_durable {events : List (Bag.Event RowId (Row ν))} (hrun : Simulation.Run (IsNew (M := M) env) (Happens env) events t) :
    ∃ old fresh, t.Durable env old fresh := by
  apply hrun.invariant
  · intro s hnew
    exact ⟨[], [], hnew.durable.1⟩
  · rintro s event s' ⟨old, fresh, h⟩ hstep
    exact (hstep.durable h).1

/-- A table stands for a store: it is durable, and holds what the store does. -/
def Stands (env : Env τ ν) (t : Table M) (s : Bag.Store RowId (Row ν)) : Prop :=
  (∃ old fresh, t.Durable env old fresh) ∧ t.held env = s

section CutOff

def crashEnv : Env Unit Nat := plainEnv plainOptions [.insert 1 0 ⟨[()], [[7], [8]]⟩, .insert 2 2 ⟨[()], [[9]]⟩]

/-- Two rows and no more: the record of a third was cut off. -/
def cutOff : Except Error PlainTable := do
  let t₀ ← Table.create crashEnv (Journal plainSizes) plainSchema (fun _ => 0) (fun _ => []) none
  let (_, t₁) ← t₀.insertLocked crashEnv [⟨plainSchema.fields, [[7], [8]]⟩]
  let (_, t₂) ← t₁.insertLocked crashEnv [⟨plainSchema.fields, [[9]]⟩]
  let left := t₂.writer.wal.cutTo t₁.writer.wal.active ((t₁.writer.wal.file t₁.writer.wal.active).len + 5)
  replayed crashEnv t₁.writer.file.io.file left.a.disk left.b.disk

theorem cutOff_run {t : PlainTable} (h : cutOff = .ok t) :
    ∃ seqno seqno', Simulation.Run (IsNew crashEnv) (Happens crashEnv)
      [.done (insertUpdates seqno [⟨plainSchema.fields, [[7], [8]]⟩]),
        .torn (insertUpdates seqno' [⟨plainSchema.fields, [[9]]⟩])] t := by
  obtain ⟨t₀, hcreate, h⟩ := bind_eq_ok.mp h
  obtain ⟨⟨_, t₁⟩, hfirst, h⟩ := bind_eq_ok.mp h
  obtain ⟨⟨_, t₂⟩, hsecond, hopen⟩ := bind_eq_ok.mp h
  have hstart : Simulation.Run (IsNew crashEnv) (Happens crashEnv) [] t₀ := .start ⟨_, _, _, hcreate⟩
  exact ⟨_, _, (hstart.step (.write (.insert _ hfirst))).step
    (.crash (.append (.insert _ hsecond) (Nat.le_add_right _ 5)) hopen)⟩

end CutOff

/-- However a table is cut off, opening it gets as far as the flush that may be due, with the rows the event allows. -/
theorem crashes_open {events : List (Bag.Event RowId (Row ν))}
    (hrun : Simulation.Run (IsNew (M := M) env) (Happens env) events t) {event : Bag.Event RowId (Row ν)} {left : M.File}
    {a b : LogFile} (hcrash : t.Crash env event left a b) :
    ∃ t', openTable env left (some a) (some b) = t'.flushIfNeeded env ∧ Happens env t event t' ∧
      event.Allows (t.held env) (t'.held env) ∧ t'.schema = t.schema := by
  obtain ⟨old, fresh, hdurable⟩ := run_durable hrun
  obtain ⟨t', -, -, hopen, -, hleads, hschema⟩ := hcrash.recovers hdurable
  refine ⟨t', ?_, .crash hcrash hopen, hleads.allows, hschema⟩
  rw [openTable_eq, hopen]
  rfl

section Twice

/-- A flush of the two rows. -/
def flushCutOff : Except Error (PlainTable × Nat × PlainTable) := do
  let t ← cutOff
  let (rows, t') ← t.flushLocked crashEnv
  return (t, rows, t')

/-- A flush that is cut off before it has written anything. -/
theorem cut_off_flush_opens : ∃ t t' : PlainTable,
    openTable crashEnv t.writer.file.io.file (some t.writer.wal.rotate.2.a.disk) (some t.writer.wal.rotate.2.b.disk) =
        t'.flushIfNeeded crashEnv ∧ Happens crashEnv t .moved t' ∧
      (Bag.Event.moved : Bag.Event RowId (Row Nat)).Allows (t.held crashEnv) (t'.held crashEnv) ∧ t'.schema = t.schema := by
  have hcheck : (match flushCutOff with
      | .ok (t, _, _) => decide (t.schema.clusterColumns = [] ∧ t.spent crashEnv ∧ ¬(t.frozen crashEnv).isEmpty)
      | .error _ => false) = true := by decide +kernel
  cases hrun : flushCutOff with
  | error e =>
      rw [hrun] at hcheck
      cases hcheck
  | ok result =>
      obtain ⟨t, rows, t'⟩ := result
      rw [hrun] at hcheck
      obtain ⟨hunclustered, hspent, hsome⟩ := of_decide_eq_true hcheck
      obtain ⟨t₀, htable, h⟩ := bind_eq_ok.mp hrun
      obtain ⟨⟨_, t₁⟩, hflush, h⟩ := bind_eq_ok.mp h
      cases Except.ok.inj h
      obtain ⟨seqno, seqno', hsteps⟩ := cutOff_run htable
      exact ⟨t, crashes_open hsteps (.flush (.inl hunclustered) hspent hsome hflush ⟨.stop _ _, fun _ h => .inl h⟩)⟩

/-- A second flush that is cut off as the first one was empties the log whose records are not yet in the file. -/
example : (do
    let t ← cutOff
    let once ← replayed crashEnv t.writer.file.io.file t.writer.wal.rotate.2.a.disk t.writer.wal.rotate.2.b.disk
    let twice ← replayed crashEnv once.writer.file.io.file once.writer.wal.rotate.2.a.disk once.writer.wal.rotate.2.b.disk
    return (once.current.liveRows, once.spent crashEnv, twice.current.liveRows)).toOption = some (2, false, 0) := by
  decide +kernel

end Twice

/-- Whatever happens next, a row is at one address, and the row at an address that was given out before is the row that was
there: an address whose row is gone stays empty. -/
theorem addresses_stay {events : List (Bag.Event RowId (Row ν))}
    (hrun : Simulation.Run (IsNew (M := M) env) (Happens env) events t)
    (hmore : Relation.ReflTransGen (fun a b => ∃ event, Happens env a event b) t t') :
    (t'.held env).map Prod.fst = t'.liveIds ∧ ((t'.held env).map Prod.fst).Nodup ∧ (∀ id, t.Given id → t'.Given id) ∧
      ∀ entry ∈ t'.held env, t'.Given entry.1 ∧ (t.Given entry.1 → entry ∈ t.held env) := by
  have hruns : (∃ old fresh, t'.Durable env old fresh) ∧ t.Keeps env t' := by
    induction hmore with
    | refl => exact ⟨run_durable hrun, .refl env t⟩
    | tail _ hstep ih =>
        obtain ⟨⟨old, fresh, hdurable⟩, hkeeps⟩ := ih
        obtain ⟨event, hhappens⟩ := hstep
        obtain ⟨hdurable', hleads⟩ := hhappens.durable hdurable
        exact ⟨hdurable', hkeeps.trans hleads.keeps⟩
  obtain ⟨⟨old, fresh, h⟩, hkeeps⟩ := hruns
  obtain ⟨hids, hnodup⟩ := map_fst_held h.whole.tidy fun entry hentry => h.opens hentry
  exact ⟨hids, hnodup, hkeeps.given, fun entry hentry => ⟨held_given h.whole.tidy entry hentry, hkeeps.held entry hentry⟩⟩

/-- Two rows that are flushed go to new addresses, and none is left at the old ones. -/
theorem flushed_rows_move : ∃ t t' : PlainTable, t.liveIds = [.memtable 0, .memtable 1] ∧
    t'.liveIds = [.segment 0 0, .segment 0 1] ∧
    ((t'.held crashEnv).map Prod.fst = t'.liveIds ∧ ((t'.held crashEnv).map Prod.fst).Nodup ∧
      (∀ id, t.Given id → t'.Given id) ∧
      ∀ entry ∈ t'.held crashEnv, t'.Given entry.1 ∧ (t.Given entry.1 → entry ∈ t.held crashEnv)) := by
  have hcheck : (match flushCutOff with
      | .ok (t, _, t') => decide (t.schema.clusterColumns = [] ∧ t.liveIds = [.memtable 0, .memtable 1] ∧
          t'.liveIds = [.segment 0 0, .segment 0 1])
      | .error _ => false) = true := by decide +kernel
  cases hrun : flushCutOff with
  | error e =>
      rw [hrun] at hcheck
      cases hcheck
  | ok result =>
      obtain ⟨t, rows, t'⟩ := result
      rw [hrun] at hcheck
      obtain ⟨hunclustered, hbefore, hafter⟩ := of_decide_eq_true hcheck
      obtain ⟨t₀, htable, h⟩ := bind_eq_ok.mp hrun
      obtain ⟨⟨_, t₁⟩, hflush, h⟩ := bind_eq_ok.mp h
      cases Except.ok.inj h
      obtain ⟨seqno, seqno', hsteps⟩ := cutOff_run htable
      exact ⟨t, t', hbefore, hafter, addresses_stay hsteps (.single ⟨_, .flush (.inl hunclustered) hflush⟩)⟩

end Runs

end Table

end LocalTables
