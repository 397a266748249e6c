import LocalTables.Table.Compaction
import LocalTables.Table.Drops
import LocalTables.Table.ReadOnly

/-! A whole compaction: its segments are cut into runs, and each run is read, rewritten and committed before the next is
read. A call may also end part way, between two runs or inside one. -/

namespace LocalTables

variable {τ ν : Type} {M : Media τ ν}

namespace Table

variable {env : Env τ ν} {t t' t₁ : Table M}

/-- What is so of a table between the calls of one caller. -/
structure Whole (env : Env τ ν) (t : Table M) : Prop where
  housed : t.Housed
  tidy : t.Tidy
  all : t.All fun _ => True
  fresh : t.Fresh
  layout : t.schema.layout = schemaLayout env t.schema.schema
  freedPos : t.writer.file.committed.manifest.FreedPos

/-- Runs of one caller. Every drop of segments is safe. -/
inductive Alone [DecidableEq τ] (env : Env τ ν) : Table M → Prop where
  | create {t : Table M} (schema : Schema τ) (fingerprint : Schema τ → Nat) (newTableUuid : Extent → List UInt8)
      (h : Table.create env M schema fingerprint newTableUuid none = .ok t) : Alone env t
  | step {t t' : Table M} (hrun : Alone env t) (hstep : Still env t t')
      (hdrops : ∀ segmentIds deleted, t.deleteSegments segmentIds = .ok (deleted, t') → t.DropsSafely segmentIds) : Alone env t'
  | change {t t' : Table M} (hrun : Alone env t) (c : Change τ) (h : t.change env c = .ok t') : Alone env t'

section Whole

variable [DecidableEq τ]

theorem Whole.locked (h : t.Whole env) (hstep : Locked env t t') (hschema : t'.schema = t.schema) (hfresh : t'.Fresh) :
    t'.Whole env := by
  refine ⟨(Stirs.locked hstep).housed h.housed, hstep.tidy h.tidy, (Stirs.locked hstep).stores h.housed h.all, hfresh, ?_,
    hstep.freedPos h.housed.synced h.housed.numbered h.freedPos⟩
  rw [hschema]
  exact h.layout

theorem Whole.flushLocked (h : t.Whole env) {rows : Nat} (hok : t.flushLocked env = .ok (rows, t')) : t'.Whole env := by
  refine h.locked (.flush hok) (flushLocked_schema hok) ?_
  rcases flushLocked_ok hok with ⟨-, rfl⟩ | ⟨pending, f, -, -, -, rfl⟩
  · exact h.fresh.congr rfl rfl
  · exact (fresh_publish _).congr rfl rfl

theorem Whole.pin (h : t.Whole env) : t.pin.Whole env := by
  have hlocked : Locked env t t.pin := .pin t
  exact ⟨h.housed.pin, hlocked.tidy h.tidy, h.all, h.fresh.congr rfl rfl, h.layout, h.freedPos⟩

theorem Whole.unpin (h : t.Whole env) (index : Nat) : (t.unpin index).Whole env := by
  have hlocked : Locked env t (t.unpin index) := .unpin t index
  exact ⟨h.housed.unpin index, hlocked.tidy h.tidy, h.all, h.fresh.congr rfl rfl, h.layout, h.freedPos⟩

theorem setSchemaLocked_freedPos {before after : TableSchema τ} {rewrite : Bool} {s : Snapshot τ ν}
    (h : t.writer.file.committed.manifest.FreedPos) (hnumbered : t.writer.file.committed.manifest.Numbered)
    (hcaptured : s.Captured t.writer.file.committed.manifest)
    (hok : t.setSchemaLocked env before after rewrite s = .ok t') : t'.writer.file.committed.manifest.FreedPos := by
  obtain ⟨t₁, hchange, rfl⟩ := setSchemaLocked_ok hok
  obtain ⟨-, extent, file, -, ⟨-, f, hcommit, rfl⟩ | ⟨rfl, pending, f, hpending, hcommit, rfl⟩⟩ := commitSchema_ok hchange
  · have hbegin : Manifest.FreedPos { t.writer.file.beginManifest with schema := extent } := h
    have hcommitted : f.committed.manifest.FreedPos := hbegin.commit hcommit
    exact hcommitted
  · have hbegin : Manifest.FreedPos { t.writer.file.beginManifest with schema := extent } := h
    have hedits := convertSegments_retire (hnumbered.congr rfl rfl) ⟨hcaptured.nodup, hcaptured.unchanged⟩ hpending
    have hpendingPos := Manifest.FreedPos.edits (p := ⟨file.io, { t.writer.file.beginManifest with schema := extent }⟩) hbegin hedits
    have hcommitted : f.committed.manifest.FreedPos := hpendingPos.commit hcommit
    exact hcommitted

theorem Whole.setSchema (h : t.Whole env) {schema : Schema τ} {rewrite : Bool} (hok : t.setSchema env schema rewrite = .ok t') :
    t'.Whole env := by
  obtain ⟨⟨rows, t₁⟩, hflush, hok⟩ := bind_eq_ok.mp hok
  obtain ⟨after, hafter, hok⟩ := bind_eq_ok.mp hok
  obtain ⟨t₂, hset, hok⟩ := bind_eq_ok.mp hok
  obtain rfl := Except.ok.inj hok
  obtain ⟨hschema, hlayout⟩ := TableSchema.new_schema hafter
  have hpinned := (h.flushLocked hflush).pin
  have hstirs : Stirs env t₁.pin t₂ := by
    cases rewrite with
    | false => exact .locked (.setSchema _ _ _ hset)
    | true => exact .rewrite _ _ _ hpinned.housed.captured hset
  have hcommitted : t₂.Whole env := by
    refine ⟨hstirs.housed hpinned.housed, hstirs.tidy hpinned.tidy, hstirs.stores hpinned.housed hpinned.all, ?_, ?_,
      setSchemaLocked_freedPos hpinned.freedPos hpinned.housed.numbered hpinned.housed.captured hset⟩
    · obtain ⟨t₃, -, rfl⟩ := setSchemaLocked_ok hset
      exact fun id => fresh_snapshot _ _ id
    · rw [setSchemaLocked_schema hset, hlayout, hschema]
  exact hcommitted.unpin 0

theorem Whole.created {schema : Schema τ} {fingerprint : Schema τ → Nat} {newTableUuid : Extent → List UInt8}
    (h : Table.create env M schema fingerprint newTableUuid none = .ok t) : t.Whole env := by
  have hreachable : Reachable env t := .create schema fingerprint newTableUuid h
  have hlaid := Laid.created h
  refine ⟨hlaid.housed, hreachable.tidy, hlaid.accepted.mono fun _ _ => trivial, ?_, hlaid.layout, hreachable.freedPos⟩
  obtain ⟨file, seed, current, -, hfresh, hcurrent, rfl⟩ := create_ok h
  exact fun id => rfl

theorem Alone.whole (hrun : Alone env t) : t.Whole env := by
  induction hrun with
  | create schema fingerprint newTableUuid h => exact .created h
  | step _ hstep hdrops ih => exact ih.locked hstep.1 hstep.2 (hstep.1.fresh ih.tidy ih.fresh hdrops)
  | change _ c h ih =>
      rcases change_ok h with ⟨-, rfl⟩ | ⟨schema, rewrite, -, hset⟩
      · exact ih
      · exact ih.setSchema hset

end Whole

/-- What a compaction of some segments is to leave: the rows of the table, no extent on the free list twice, and every other
segment listed as it was, with its deletions and its bytes. -/
structure KeepsTable (env : Env τ ν) (t : Table M) (ids : List SegmentId) (t' : Table M) : Prop where
  rows : t'.rows env = t.rows env
  once : t'.writer.file.committed.manifest.freed.Nodup
  untouched : ∀ entry ∈ t.writer.file.committed.manifest.segments, entry.segmentId ∉ ids →
    entry ∈ t'.writer.file.committed.manifest.segments ∧
      t'.writer.deletes entry.segmentId = t.writer.deletes entry.segmentId ∧
      ∀ e ∈ entry.refs, ∀ k, M.read t'.writer.file.io.file e k = M.read t.writer.file.io.file e k

/-- In a clustered table a run has an order that is counted in `u32`. -/
def Fits (t : Table M) (run : List SegmentId) : Prop :=
  t.schema.clusterColumns = [] ∨ (run.map fun id => (t.current.shownIn id).card).sum < 2 ^ 32

section Read

variable {run : List SegmentId} {rewrite : Rewrite τ ν}

theorem Whole.once (h : t.Whole env) : t.writer.file.committed.manifest.freed.Nodup :=
  h.freedPos.nodup h.housed.roomy.accounted

/-- What readers are shown counts as the writer's deletions do. -/
theorem Whole.counted (h : t.Whole env) : t.current.Counted t.writer.file.io.file := by
  refine ⟨fun entry hentry => ?_, fun entry hentry rows hrows position hposition => ?_⟩
  · rw [h.housed.synced.manifest] at hentry
    obtain ⟨data, hstores, -⟩ := h.all entry hentry
    exact ⟨data, hstores⟩
  · rw [h.housed.synced.manifest] at hentry
    have hsame := h.fresh entry.segmentId
    rw [hrows, Option.getD_some] at hsame
    rw [hsame] at hposition
    cases hdeletes : t.writer.deletes entry.segmentId with
    | none => simp [hdeletes] at hposition
    | some deleted =>
        rw [hdeletes] at hposition
        exact h.tidy.bounded entry hentry deleted hdeletes position hposition

theorem Whole.not_stale (h : t.Whole env) (hread : t.compactRead env run = .ok rewrite) : ¬t.isStale rewrite := by
  obtain ⟨-, hsnapshot, -⟩ := compactRead_ok hread
  intro hstale
  obtain ⟨entry, -, hdiffer⟩ := List.any_eq_true.mp hstale
  refine of_decide_eq_true hdiffer ?_
  have hcard : ∀ deletes : SegmentId → Option (Finset Nat),
      deletedIn deletes entry.segmentId = ((deletes entry.segmentId).getD ∅).card := by
    intro deletes
    unfold deletedIn
    cases deletes entry.segmentId <;> rfl
  rw [hcard, hcard, hsnapshot, h.fresh]

/-- The rows that were read are those the sources show. -/
theorem Whole.live (h : t.Whole env) (hread : t.compactRead env run = .ok rewrite) :
    rowsOf rewrite.live = rewrite.sources.flatMap (t.rowsOfSegment env) := by
  rw [(compactRead_live h.tidy hread).1]
  refine List.flatMap_congr fun entry _ => ?_
  rw [rowsOfSegment, h.fresh]

/-- A segment that can be opened shows a row for each position that is not deleted. -/
theorem Whole.length_rowsOfSegment (h : t.Whole env) {entry : SegmentEntry}
    (hentry : entry ∈ t.writer.file.committed.manifest.segments) {data : SegmentData ν}
    (hdata : segmentReader t.writer.file.io.file entry t.schema.layout = .ok data) : (t.rowsOfSegment env entry).length =
      (Finset.range entry.rowCount \ (t.writer.deletes entry.segmentId).getD ∅).card := by
  have hcounted := h.counted
  have hmem : entry ∈ t.current.manifest.segments := by
    rw [h.housed.synced.manifest]
    exact hentry
  have hlength := hcounted.length_live hmem (segmentReader_ok hdata).1
  have hcard := card_kept (hcounted.bounded entry hmem)
  rw [h.fresh] at hlength hcard
  rw [rowsOfSegment, SegmentEntry.rowsIn_eq hdata, List.length_map, hlength]
  exact hcard

/-- A source shows as many rows as it has live positions. -/
theorem Whole.length_source (h : t.Whole env) (hread : t.compactRead env run = .ok rewrite) {entry : SegmentEntry}
    (hentry : entry ∈ rewrite.sources) :
    (t.rowsOfSegment env entry).length = (t.current.shownIn entry.segmentId).card := by
  obtain ⟨data, hdata⟩ := (compactRead_live h.tidy hread).2 entry hentry
  have hlisted := compactRead_listed h.housed.synced hread entry hentry
  rw [h.length_rowsOfSegment hlisted hdata, h.fresh.shownIn h.housed.synced, h.tidy.kept hlisted]

theorem Whole.fits_iff (h : t.Whole env) (hread : t.compactRead env run = .ok rewrite) :
    t.Fits run ↔ FitsCluster t.schema.clusterColumns rewrite.live := by
  have htotal : totalRows rewrite.live = (run.map fun id => (t.current.shownIn id).card).sum := by
    rw [← length_rowsOf, h.live hread, List.length_flatMap, ← (compactRead_ok hread).1, ← compactRead_sources hread,
      List.map_map]
    congr 1
    exact List.map_congr_left fun entry hentry => h.length_source hread hentry
  rw [Fits, FitsCluster, htotal]

end Read

section Locked

variable [DecidableEq τ] {run retired : List SegmentId} {rewrite : Rewrite τ ν} {rows : Nat}

/-- A run that names a segment twice gives its extent up twice. -/
theorem compactLocked_once (h : t.Whole env) (hread : t.compactRead env run = .ok rewrite)
    (hok : t.compactLocked env rewrite = .ok (rows, t')) (honce : t'.writer.file.committed.manifest.freed.Nodup) :
    run.Nodup := by
  obtain ⟨groups, pending, f, -, -, hpending, hcommit, rfl⟩ :=
    (compactLocked_ok hok).resolve_left fun hstale => h.not_stale hread hstale.1
  change f.committed.manifest.freed.Nodup at honce
  obtain ⟨extent, manifest, io, hwrite, -, rfl⟩ := TableFile.commit_ok hcommit
  obtain ⟨-, -, -, rfl, -⟩ := writeManifest_ok hwrite
  have hretired : (pending.manifest.retire rewrite.ids rewrite.sources).freed.Nodup := by
    refine List.Nodup.sublist ?_ honce
    have hfreed := Manifest.freed_freeAll (m := { pending.manifest.retire rewrite.ids rewrite.sources with
      txnId := t.writer.file.committed.metaPage.txnId + 1 }) [t.writer.file.nextSlotManifest]
    change List.Sublist _ (Manifest.freed (Manifest.freeAll _ [t.writer.file.nextSlotManifest]))
    rw [hfreed]
    exact List.sublist_append_left _ _
  rw [Manifest.retire, Manifest.freed_freeAll] at hretired
  have hdata : (rewrite.sources.map SegmentEntry.data).Nodup := by
    refine List.Nodup.sublist ?_ (List.nodup_append.mp hretired).2.1
    have hlisted := compactRead_listed h.housed.synced hread
    have hpos : ∀ entry ∈ rewrite.sources, 0 < entry.data.len := fun entry hentry =>
      h.housed.roomy.refsPos _ (Manifest.mem_refs.mpr ⟨entry, hlisted entry hentry, .inl rfl⟩)
    generalize rewrite.sources = sources at hpos
    induction sources with
    | nil => exact List.Sublist.refl _
    | cons entry sources ih =>
        rw [List.map_cons, List.flatMap_cons, SegmentEntry.refs, List.cons_append, List.filter_cons,
          if_pos (decide_eq_true (hpos entry List.mem_cons_self)), List.filter_append]
        refine List.Sublist.cons_cons _ ((ih fun other hother => hpos other (List.mem_cons_of_mem _ hother)).trans ?_)
        exact List.sublist_append_right _ _
  rw [← (compactRead_ok hread).1, ← compactRead_sources hread]
  refine (hdata.of_map _).map_on fun a ha b hb hid => ?_
  exact h.housed.numbered.eq_of_id (compactRead_listed h.housed.synced hread a ha) (compactRead_listed h.housed.synced hread b hb) hid

/-- A run of distinct segments keeps the table, as far as its rows can be put in order. -/
theorem compactLocked_keeps (h : t.Whole env) (hrun : run.Nodup) (hread : t.compactRead env run = .ok rewrite)
    (hok : t.compactLocked env rewrite = .ok (rows, t')) :
    t'.Whole env ∧ (t'.rows env = t.rows env ↔ t.Fits run) ∧ (t.Fits run → KeepsTable env t run t') := by
  have hstale := h.not_stale hread
  have hcurrent := compactRead_current h.housed.synced hrun hread
  have hacts := compactLocked_acts h.housed.synced h.housed.numbered hcurrent hok
  obtain ⟨groupRows, groups, kept, hgroups, hbefore, hafter⟩ :=
    compactLocked_replaces h.housed h.all h.tidy h.layout hcurrent (h.live hread) hstale hok
  have hrows : t'.rows env = t.rows env ↔ t.Fits run := by
    rw [h.fits_iff hread, hbefore, hafter, add_right_inj, Multiset.coe_eq_coe, fitsCluster_iff hgroups]
    refine ⟨List.Perm.length_eq, fun hlength => rowsOf_rowGroups ?_ hgroups⟩
    exact (fitsCluster_iff hgroups).mpr hlength
  obtain ⟨_, pending, f, -, -, hpending, hcommit, ht'⟩ := (compactLocked_ok hok).resolve_left fun hold => hstale hold.1
  have hfresh : t'.Fresh := by
    rw [ht']
    exact fresh_publish _
  have hwhole := h.locked (.compact run hrun hread hok) (compactLocked_schema hok) hfresh
  refine ⟨hwhole, hrows, fun hfits => ⟨hrows.mpr hfits, hwhole.once, fun entry hentry hid => ⟨?_, ?_, fun e he k => ?_⟩⟩⟩
  · obtain ⟨-, -, -, -, hsegments, -⟩ := TableFile.commit_stamps hcommit
    rw [ht']
    change entry ∈ f.committed.manifest.segments
    rw [hsegments, Manifest.segments_retire, (compactRead_ok hread).1]
    exact List.mem_filter.mpr ⟨(writeSegments_appends hpending).subset hentry, decide_eq_true hid⟩
  · rw [ht', Writer.forgetAll_eq, hcurrent.sources, (compactRead_ok hread).1]
    exact if_neg hid
  · refine h.housed.reads (h.housed.shifts_of_acts hacts) (.inl rfl) ?_ k
    rw [h.housed.synced.manifest]
    exact List.mem_flatMap.mpr ⟨entry, hentry, he⟩

omit [DecidableEq τ] in
theorem Housed.low (h : t.Housed) {e : Extent} (he : e ∈ t.writer.file.committed.manifest.refs) : dataStart ≤ e.offset :=
  (h.roomy.accounted.bounds (.inl (List.mem_append_right _ he)) (h.roomy.refsPos e he)).1

omit [DecidableEq τ] in
/-- A blob that is not written, or not all of it, spares what is guarded. -/
theorem WriteFails.reads {f : TableFile M} {p : Pending M} {blob : Blob τ ν} {align minActive : Nat} {io : FileIo M}
    (hdrafted : Drafted minActive f p) (halign : align.isPowerOfTwo) (h : WriteFails p blob align minActive io) {e : Extent}
    (he : Guarded minActive p.manifest e) (k : Kind) : M.read io.file e k = M.read p.io.file e k := by
  cases h with
  | refused => rfl
  | stopped hok hcut =>
      obtain ⟨hsize, hpos, halloc, hissued⟩ := writeAllocated_ok halign hok
      rw [hissued.since] at hcut
      have hin := hdrafted.guarded_inFile he
      have hapart := hdrafted.guarded_apart he hpos halign
      rw [halloc] at hapart
      exact (hcut.spared (spares_allocatedWrite hsize hin hapart) hin).2 k

/-- Row groups that are not all written spare what is guarded. -/
theorem GroupsFail.reads {current : TableSchema τ} {minActive groupRows : Nat} {f : TableFile M} {p : Pending M}
    {batches : List (RecordBatch τ ν)} {io : FileIo M} (hdrafted : Drafted minActive f p)
    (h : GroupsFail env current minActive groupRows p batches io) {e : Extent} (he : Guarded minActive p.manifest e) (k : Kind) :
    M.read io.file e k = M.read p.io.file e k := by
  cases h with
  | groups => rfl
  | write hgroups hfails =>
      obtain ⟨front, batch, back, reached, -, hreached, hlast⟩ := hfails
      have hedits := writeSegments_edits hreached
      obtain ⟨hguarded, hkept⟩ := hdrafted.edits_keeps hedits e he
      cases hlast with
      | build => exact hkept k
      | write _ _ hwrite =>
          exact (WriteFails.reads (hdrafted.edits hedits) isPowerOfTwo_segmentAlign hwrite hguarded k).trans (hkept k)

omit [DecidableEq τ] in
/-- A commit that stops part way spares what is listed. -/
theorem CommitFails.reads {minActive : Nat} {f : TableFile M} {p : Pending M} {m : Manifest} {io : FileIo M}
    (hdrafted : Drafted minActive f p) (h : CommitFails { f with io := p.io } m io) {e : Extent} (he : Guarded minActive p.manifest e)
    (hlow : dataStart ≤ e.offset) (k : Kind) : M.read io.file e k = M.read p.io.file e k := by
  obtain ⟨left, hcut, rfl⟩ := h
  exact (TableFile.spared_commitCut hcut (hdrafted.guarded_inFile he) (TableFile.page_apart_of_dataStart _ hlow)).2 k

/-- A rewrite that fails spares what readers are shown. -/
theorem CompactFails.reads (h : t.Housed) (hfails : CompactFails env t rewrite retired t') {e : Extent}
    (he : e ∈ t.writer.file.committed.manifest.refs) (k : Kind) :
    M.read t'.writer.file.io.file e k = M.read t.writer.file.io.file e k := by
  have hbegin : Drafted t.minActiveTxn t.writer.file ⟨t.writer.file.io, t.writer.file.beginManifest⟩ := .begin h.roomy
  have hguarded := hbegin.refs_guarded h.min_le he
  cases hfails with
  | groups hstale hgroups => exact hgroups.reads hbegin hguarded k
  | @commit groups pending io hstale hgroups hpending hcommit =>
      have hedits := writeSegments_edits hpending
      obtain ⟨hstill, hkept⟩ := hbegin.edits_keeps hedits e hguarded
      rw [Writer.forgetAll_eq]
      exact (CommitFails.reads (hbegin.edits hedits) hcommit hstill (h.low he) k).trans (hkept k)

/-- What a failed rewrite gave up are deletions of its sources. -/
theorem CompactFails.of_sources (hfails : CompactFails env t rewrite retired t') :
    retired = [] ∨ retired = rewrite.sources.map SegmentEntry.segmentId := by
  cases hfails with
  | groups => exact .inl rfl
  | commit => exact .inr rfl

omit [DecidableEq τ] in
/-- The rows a segment shows after a failure are those it shows with the deletions that are left. -/
theorem GaveUp.rowsOfSegment (hgave : t.GaveUp retired t') {entry : SegmentEntry}
    (hreads : M.read t'.writer.file.io.file entry.data (.segment entry.metaAt) =
      M.read t.writer.file.io.file entry.data (.segment entry.metaAt)) : t'.rowsOfSegment env entry =
      entry.rowsIn env t.writer.file.io.file t.schema (if entry.segmentId ∈ retired then ∅
        else (t.writer.deletes entry.segmentId).getD ∅) := by
  obtain ⟨io, rfl⟩ := hgave
  rw [Writer.forgetAll_eq] at hreads ⊢
  rw [Table.rowsOfSegment, SegmentEntry.rowsIn_congr rfl rfl hreads]
  dsimp only [withWriter, withIo]
  split
  · rfl
  · rfl

omit [DecidableEq τ] in
/-- Deletions that a failed call forgets come back as rows, and nothing else does. -/
theorem GaveUp.rows_iff (h : t.Whole env) (hgave : t.GaveUp retired t')
    (hreads : ∀ entry ∈ t.writer.file.committed.manifest.segments,
      M.read t'.writer.file.io.file entry.data (.segment entry.metaAt) =
        M.read t.writer.file.io.file entry.data (.segment entry.metaAt))
    (hretired : ∀ id ∈ retired, ∃ entry ∈ t.writer.file.committed.manifest.segments, entry.segmentId = id ∧
      ∃ data, segmentReader t.writer.file.io.file entry t.schema.layout = .ok data) :
    t'.rows env = t.rows env ↔ ∀ id ∈ retired, (t.writer.deletes id).getD ∅ = ∅ := by
  have hshown : ∀ entry ∈ t.writer.file.committed.manifest.segments, t'.rowsOfSegment env entry =
      entry.rowsIn env t.writer.file.io.file t.schema (if entry.segmentId ∈ retired then ∅
        else (t.writer.deletes entry.segmentId).getD ∅) := fun entry hentry => hgave.rowsOfSegment (hreads entry hentry)
  have hrows : t'.rows env = ↑(t.writer.file.committed.manifest.segments.flatMap (t'.rowsOfSegment env)) +
      ↑(t.writer.memtable.live.map Prod.snd) := by
    obtain ⟨io, rfl⟩ := hgave
    rw [Writer.forgetAll_eq]
    rfl
  rw [hrows, Table.rows, add_left_inj]
  constructor
  · intro hsame id hid
    by_contra hsome
    obtain ⟨entry, hlisted, rfl, data, hdata⟩ := hretired id hid
    have hlength : ∀ other ∈ t.writer.file.committed.manifest.segments,
        (t.rowsOfSegment env other).length ≤ (t'.rowsOfSegment env other).length := by
      intro other hother
      rw [hshown other hother, Table.rowsOfSegment]
      split
      · exact SegmentEntry.length_rowsIn_le _
      · exact le_rfl
    have hmore : (t.rowsOfSegment env entry).length < (t'.rowsOfSegment env entry).length := by
      obtain ⟨stored, hstores, -⟩ := h.all entry hlisted
      have hcount : data.rows.length = entry.rowCount := by
        have hread := Except.ok.inj ((segmentReader_ok hdata).1.symm.trans hstores.read)
        rw [Blob.segment.inj hread]
        exact hstores.rows
      obtain ⟨position, hposition⟩ := Finset.nonempty_iff_ne_empty.mpr hsome
      have hlt : position < entry.rowCount := by
        cases hdeletes : t.writer.deletes entry.segmentId with
        | none => simp [hdeletes] at hposition
        | some deleted =>
            rw [hdeletes] at hposition
            exact h.tidy.bounded entry hlisted deleted hdeletes position hposition
      have hfewer : (Finset.range entry.rowCount \ (t.writer.deletes entry.segmentId).getD ∅).card <
          (Finset.range entry.rowCount).card := by
        refine Finset.card_lt_card (Finset.ssubset_iff_subset_ne.mpr ⟨Finset.sdiff_subset, fun hall => ?_⟩)
        have hmem := Finset.mem_range.mpr hlt
        rw [← hall] at hmem
        exact (Finset.mem_sdiff.mp hmem).2 hposition
      rw [Finset.card_range] at hfewer
      rw [hshown entry hlisted, if_pos hid, SegmentEntry.rowsIn_eq hdata, List.length_map,
        ← List.length_map (f := Prod.fst), data.live_empty, hcount, h.length_rowsOfSegment hlisted hdata]
      exact hfewer
    have hsum := List.sum_lt_sum (fun entry => (t.rowsOfSegment env entry).length)
      (fun entry => (t'.rowsOfSegment env entry).length) hlength ⟨entry, hlisted, hmore⟩
    have hcard := congrArg Multiset.card hsame
    rw [Multiset.coe_card, Multiset.coe_card, List.length_flatMap, List.length_flatMap] at hcard
    exact absurd hcard (Nat.ne_of_gt hsum)
  · intro hnone
    refine congrArg _ (List.flatMap_congr fun entry hentry => ?_)
    rw [hshown entry hentry, Table.rowsOfSegment]
    split
    · next hid => rw [hnone _ hid]
    · rfl

theorem CompactFails.rows_iff (h : t.Whole env) (hread : t.compactRead env run = .ok rewrite)
    (hfails : CompactFails env t rewrite retired t') :
    t'.rows env = t.rows env ↔ ∀ id ∈ retired, (t.writer.deletes id).getD ∅ = ∅ := by
  refine hfails.gaveUp.rows_iff h (fun entry hentry => ?_) fun id hid => ?_
  · exact hfails.reads h.housed (Manifest.mem_refs.mpr ⟨entry, hentry, .inl rfl⟩) _
  · obtain ⟨entry, hentry, rfl⟩ : ∃ entry ∈ rewrite.sources, entry.segmentId = id := by
      rcases hfails.of_sources with rfl | rfl
      · cases hid
      · exact List.mem_map.mp hid
    exact ⟨entry, compactRead_listed h.housed.synced hread entry hentry, rfl, (compactRead_live h.tidy hread).2 entry hentry⟩

theorem CompactFails.keeps (h : t.Whole env) (hread : t.compactRead env run = .ok rewrite)
    (hfails : CompactFails env t rewrite retired t') (hnone : ∀ id ∈ retired, (t.writer.deletes id).getD ∅ = ∅) :
    KeepsTable env t run t' := by
  have hrows := (hfails.rows_iff h hread).mpr hnone
  have hreads : ∀ entry ∈ t.writer.file.committed.manifest.segments, ∀ e ∈ entry.refs, ∀ k,
      M.read t'.writer.file.io.file e k = M.read t.writer.file.io.file e k := fun entry hentry e he k =>
    hfails.reads h.housed (List.mem_flatMap.mpr ⟨entry, hentry, he⟩) k
  have hretired : ∀ id ∈ retired, id ∈ run := by
    intro id hid
    rcases hfails.of_sources with rfl | rfl
    · cases hid
    · rw [compactRead_sources hread, (compactRead_ok hread).1] at hid
      exact hid
  have honce := h.once
  obtain ⟨io, rfl⟩ := hfails.gaveUp
  rw [Writer.forgetAll_eq] at hreads hrows ⊢
  exact ⟨hrows, honce, fun entry hentry hid => ⟨hentry, if_neg fun hmem => hid (hretired _ hmem), hreads entry hentry⟩⟩

end Locked

section Calls

variable [DecidableEq τ] {ids retired : List SegmentId} {done : List (List SegmentId × Table M)}

/-- Runs that were committed, each with the table it left. -/
inductive Compacted (env : Env τ ν) : Table M → List (List SegmentId × Table M) → Table M → Prop where
  | nil (t : Table M) : Compacted env t [] t
  | cons {t t₁ t' : Table M} {run : List SegmentId} {rows : Nat} {done : List (List SegmentId × Table M)}
      (hrun : t.compactRun env run = .ok (rows, t₁)) (hrest : Compacted env t₁ done t') : Compacted env t ((run, t₁) :: done) t'

/-- A run that is not committed: its rows are not read, or its locked half fails, with the segments it has retired by then. -/
inductive RunFails (env : Env τ ν) (t : Table M) (run : List SegmentId) : List SegmentId → Table M → Prop where
  | read : RunFails env t run [] t
  | locked {rewrite : Rewrite τ ν} {retired : List SegmentId} {t' : Table M} (hread : t.pin.compactRead env run = .ok rewrite)
      (h : CompactFails env t.pin rewrite retired t') : RunFails env t run retired t'.unpinFirst

/-- How a call returns, Ok or Err, with the runs it committed and what the run that failed had retired. -/
inductive Returns (env : Env τ ν) (t : Table M) (ids : List SegmentId) :
    List (List SegmentId × Table M) → List SegmentId → Table M → Prop where
  | none (h : ids.isEmpty) : Returns env t ids [] [] t
  | refused {e : Error} (h : runs env t.pin.current ids = .error e) : Returns env t ids [] [] t
  | ok {done : List (List SegmentId × Table M)} {t' : Table M} (hcut : runs env t.pin.current ids = .ok (done.map Prod.fst))
      (hdone : Compacted env t.pin done t') : Returns env t ids done [] t'.unpinFirst
  | fails {done : List (List SegmentId × Table M)} {run retired : List SegmentId} {back : List (List SegmentId)}
      {t₁ t' : Table M} (hcut : runs env t.pin.current ids = .ok (done.map Prod.fst ++ run :: back))
      (hdone : Compacted env t.pin done t₁) (h : RunFails env t₁ run retired t') : Returns env t ids done retired t'.unpinFirst

/-- Each run names distinct segments and fits, and what the last one gave up were no deletions. -/
def Spares : Table M → List (List SegmentId × Table M) → List SegmentId → Prop
  | t, [], retired => ∀ id ∈ retired, (t.writer.deletes id).getD ∅ = ∅
  | t, (run, t₁) :: done, retired => run.Nodup ∧ t.Fits run ∧ Spares t₁ done retired

theorem compacted_of_fold {cut : List (List SegmentId)} {start reached : Nat × Table M}
    (h : cut.foldlM (fun (done : Nat × Table M) run => do
      let (more, t) ← compactRun env done.2 run
      return (done.1 + more, t)) start = .ok reached) :
    ∃ done, done.map Prod.fst = cut ∧ Compacted env start.2 done reached.2 := by
  induction cut generalizing start with
  | nil =>
      obtain rfl := Except.ok.inj h
      exact ⟨[], rfl, .nil _⟩
  | cons run cut ih =>
      obtain ⟨mid, hmid, h⟩ := bind_eq_ok.mp h
      obtain ⟨⟨more, t₁⟩, hrun, hmid⟩ := bind_eq_ok.mp hmid
      obtain rfl := Except.ok.inj hmid
      obtain ⟨done, hdone, hcompacted⟩ := ih h
      exact ⟨(run, t₁) :: done, congrArg (run :: ·) hdone, .cons hrun hcompacted⟩

theorem compactSegments_returns {rows : Nat} (h : t.compactSegments env ids = .ok (rows, t')) :
    ∃ done, Returns env t ids done [] t' := by
  unfold compactSegments at h
  split at h
  · next hnone =>
      obtain ⟨-, rfl⟩ := Prod.mk.inj (Except.ok.inj h)
      exact ⟨[], .none hnone⟩
  · obtain ⟨cut, hcut, h⟩ := bind_eq_ok.mp h
    obtain ⟨⟨n, t₁⟩, hfold, h⟩ := bind_eq_ok.mp h
    obtain ⟨-, rfl⟩ := Prod.mk.inj (Except.ok.inj h)
    obtain ⟨done, rfl, hdone⟩ := compacted_of_fold hfold
    exact ⟨done, .ok hcut hdone⟩

theorem CompactSegmentsFails.returns (h : CompactSegmentsFails env t ids t') : ∃ done retired, Returns env t ids done retired t' := by
  cases h with
  | runs hsome hrefused => exact ⟨[], [], .refused hrefused⟩
  | run hsome hcut hfold =>
      obtain ⟨front, run, back, reached, rfl, hreached, hlast⟩ := hfold
      obtain ⟨done, rfl, hdone⟩ := compacted_of_fold hreached
      cases hlast with
      | read => exact ⟨done, [], .fails hcut hdone .read⟩
      | locked _ hread hfails => exact ⟨done, _, .fails hcut hdone (.locked hread hfails)⟩

omit [DecidableEq τ] in
theorem runs_ne_nil {s : Snapshot τ ν} {cut : List (List SegmentId)} (h : runs env s ids = .ok cut) : ∀ run ∈ cut, run ≠ [] := by
  obtain ⟨⟨cut', bytes⟩, hfold, h⟩ := bind_eq_ok.mp h
  obtain rfl := Except.ok.inj h
  refine foldlM_ok (P := fun cut : List (List SegmentId) × Nat => ∀ run ∈ cut.1, run ≠ []) ?_ (by simp) hfold
  intro cut cut' id hcut hadd run hrun
  unfold addToRuns at hadd
  split at hadd
  · cases hadd
  · dsimp only at hadd
    split at hadd
    · split at hadd
      · obtain rfl := Except.ok.inj hadd
        rcases List.mem_append.mp hrun with hrun | hrun
        · exact hcut run (List.mem_of_mem_dropLast hrun)
        · rw [List.mem_singleton.mp hrun]
          simp
      · obtain rfl := Except.ok.inj hadd
        rcases List.mem_append.mp hrun with hrun | hrun
        · exact hcut run hrun
        · rw [List.mem_singleton.mp hrun]
          simp
    · obtain rfl := Except.ok.inj hadd
      rcases List.mem_append.mp hrun with hrun | hrun
      · exact hcut run hrun
      · rw [List.mem_singleton.mp hrun]
        simp

theorem Whole.compactRun {run : List SegmentId} {rows : Nat} (h : t.Whole env) (hsome : run ≠ [])
    (hok : t.compactRun env run = .ok (rows, t')) :
    (run.Nodup → t.Fits run → t'.Whole env ∧ KeepsTable env t run t') ∧
      (t'.rows env = t.rows env → t'.writer.file.committed.manifest.freed.Nodup → run.Nodup ∧ t.Fits run) := by
  rw [Table.compactRun, if_neg (by simpa using hsome)] at hok
  obtain ⟨rewrite, hread, hok⟩ := bind_eq_ok.mp hok
  obtain ⟨⟨n, t₁⟩, hlocked, hok⟩ := bind_eq_ok.mp hok
  obtain ⟨-, rfl⟩ := Prod.mk.inj (Except.ok.inj hok)
  have hpinned := h.pin
  refine ⟨fun hrun hfits => ?_, fun hrows honce => ?_⟩
  · obtain ⟨hwhole, -, hkeeps⟩ := compactLocked_keeps hpinned hrun hread hlocked
    obtain ⟨hrows, honce, huntouched⟩ := hkeeps hfits
    exact ⟨hwhole.unpin 0, hrows, honce, huntouched⟩
  · have hrun := compactLocked_once hpinned hread hlocked honce
    exact ⟨hrun, (compactLocked_keeps hpinned hrun hread hlocked).2.1.mp hrows⟩

theorem Whole.runFails {run : List SegmentId} (h : t.Whole env) (hfails : RunFails env t run retired t') :
    ((∀ id ∈ retired, (t.writer.deletes id).getD ∅ = ∅) → KeepsTable env t run t') ∧
      (t'.rows env = t.rows env → ∀ id ∈ retired, (t.writer.deletes id).getD ∅ = ∅) := by
  cases hfails with
  | read => exact ⟨fun _ => ⟨rfl, h.once, fun _ hentry _ => ⟨hentry, rfl, fun _ _ _ => rfl⟩⟩, by simp⟩
  | locked hread hfails =>
      have hpinned := h.pin
      refine ⟨fun hnone => ?_, fun hrows id hid => (hfails.rows_iff hpinned hread).mp hrows id hid⟩
      obtain ⟨hrows, honce, huntouched⟩ := hfails.keeps hpinned hread hnone
      exact ⟨hrows, honce, huntouched⟩

omit [DecidableEq τ] in
theorem KeepsTable.trans {run : List SegmentId} (h : KeepsTable env t ids t₁) (hnext : KeepsTable env t₁ run t')
    (hsub : run ⊆ ids) : KeepsTable env t ids t' := by
  refine ⟨hnext.rows.trans h.rows, hnext.once, fun entry hentry hid => ?_⟩
  obtain ⟨hlisted, hdeletes, hreads⟩ := h.untouched entry hentry hid
  obtain ⟨hlisted', hdeletes', hreads'⟩ := hnext.untouched entry hlisted fun hmem => hid (hsub hmem)
  exact ⟨hlisted', hdeletes'.trans hdeletes, fun e he k => (hreads' e he k).trans (hreads e he k)⟩

/-- Run after run: what every table along the way keeps, and what the runs have to be for it. -/
theorem Compacted.keeps_iff {t₀ : Table M} (hdone : Compacted env t done t₁) (h : t.Whole env)
    (hkeeps : KeepsTable env t₀ ids t) (hruns : ∀ x ∈ done, x.1 ≠ [] ∧ x.1 ⊆ ids) {last : List SegmentId} (hlast : last ⊆ ids)
    (hfails : RunFails env t₁ last retired t') :
    (∀ t₂ ∈ done.map Prod.snd ++ [t'], KeepsTable env t₀ ids t₂) ↔ Spares t done retired := by
  induction hdone with
  | nil t =>
      obtain ⟨hkept, hnone⟩ := h.runFails hfails
      constructor
      · intro hall
        exact hnone ((hall t' (by simp)).rows.trans hkeeps.rows.symm)
      · intro hspares t₂ ht₂
        obtain rfl := List.mem_singleton.mp ht₂
        exact hkeeps.trans (hkept hspares) hlast
  | @cons t t₂ t₁ run rows done hrun hrest ih =>
      obtain ⟨hsome, hsub⟩ := hruns (run, t₂) List.mem_cons_self
      obtain ⟨hkept, hneeds⟩ := h.compactRun hsome hrun
      have hothers : ∀ x ∈ done, x.1 ≠ [] ∧ x.1 ⊆ ids := fun x hx => hruns x (List.mem_cons_of_mem _ hx)
      constructor
      · intro hall
        have hfirst : KeepsTable env t₀ ids t₂ := hall t₂ (by simp)
        obtain ⟨hnodup, hfits⟩ := hneeds (hfirst.rows.trans hkeeps.rows.symm) hfirst.once
        refine ⟨hnodup, hfits, ?_⟩
        refine (ih (hkept hnodup hfits).1 hfirst hothers hfails).mp fun t₃ ht₃ => hall t₃ ?_
        exact List.mem_cons_of_mem _ ht₃
      · rintro ⟨hnodup, hfits, hspares⟩
        obtain ⟨hwhole, hkeepsRun⟩ := hkept hnodup hfits
        have hfirst := hkeeps.trans hkeepsRun hsub
        exact List.forall_mem_cons.mpr ⟨hfirst, (ih hwhole hfirst hothers hfails).mpr hspares⟩

omit [DecidableEq τ] in
theorem KeepsTable.repin (h : KeepsTable env t ids t₁) (hwriter : t'.writer = t₁.writer) (hschema : t'.schema = t₁.schema) :
    KeepsTable env t ids t' := by
  obtain ⟨hrows, honce, huntouched⟩ := h
  refine ⟨?_, hwriter ▸ honce, hwriter ▸ huntouched⟩
  have hsame : t'.rowsOfSegment env = t₁.rowsOfSegment env := by
    funext entry
    rw [rowsOfSegment, rowsOfSegment, hwriter, hschema]
  rw [← hrows, Table.rows, Table.rows, hwriter, hsame]

/-- The same where the call drops its snapshot before it returns. -/
theorem Compacted.keeps_unpinned {t₂ : Table M} (hdone : Compacted env t.pin done t₁) (h : t.Whole env)
    (hruns : ∀ x ∈ done, x.1 ≠ [] ∧ x.1 ⊆ ids) {last : List SegmentId} (hlast : last ⊆ ids)
    (hfails : RunFails env t₁ last retired t₂) (hwriter : t'.writer = t₂.writer) (hschema : t'.schema = t₂.schema) :
    (∀ t₃ ∈ done.map Prod.snd ++ [t'], KeepsTable env t ids t₃) ↔ Spares t done retired := by
  have hstart : KeepsTable env t ids t.pin := ⟨rfl, h.once, fun _ hentry _ => ⟨hentry, rfl, fun _ _ _ => rfl⟩⟩
  have hspares : Spares t.pin done retired ↔ Spares t done retired := by
    cases done with
    | nil => exact Iff.rfl
    | cons x done => exact Iff.rfl
  rw [← hspares, ← hdone.keeps_iff h.pin hstart hruns hlast hfails]
  simp only [List.forall_mem_append, List.forall_mem_singleton]
  exact and_congr_right fun _ => ⟨fun hkeeps => hkeeps.repin hwriter.symm hschema.symm, fun hkeeps => hkeeps.repin hwriter hschema⟩

/-- The table through a whole compaction. Whatever it returns, every table on the way to it keeps the rows, frees no extent
twice and leaves the other segments alone, exactly where each run that was committed names distinct segments and fits, and the
one that failed had no deletions to give up. -/
theorem compact_segments_keeps_table (hrun : Alone env t) (h : Returns env t ids done retired t') :
    (∀ t₁ ∈ done.map Prod.snd ++ [t'], KeepsTable env t ids t₁) ↔ Spares t done retired := by
  have hwhole := hrun.whole
  have hpieces : ∀ {cut : List (List SegmentId)}, runs env t.pin.current ids = .ok cut → ∀ run ∈ cut, run ≠ [] ∧ run ⊆ ids := by
    intro cut hcut run hrun
    refine ⟨runs_ne_nil hcut run hrun, fun id hid => ?_⟩
    rw [← flatten_runs hcut]
    exact List.mem_flatten_of_mem hrun hid
  cases h with
  | none => exact (Compacted.nil t.pin).keeps_unpinned hwhole (by simp) (List.nil_subset ids) .read rfl rfl
  | refused => exact (Compacted.nil t.pin).keeps_unpinned hwhole (by simp) (List.nil_subset ids) .read rfl rfl
  | ok hcut hdone =>
      refine hdone.keeps_unpinned hwhole (fun x hx => ?_) (List.nil_subset ids) .read rfl rfl
      exact hpieces hcut x.1 (List.mem_map_of_mem hx)
  | fails hcut hdone hfails =>
      refine hdone.keeps_unpinned hwhole (fun x hx => ?_) (hpieces hcut _ (by simp)).2 hfails rfl rfl
      exact hpieces hcut x.1 (List.mem_append_left _ (List.mem_map_of_mem hx))

theorem Compacted.spares (hdone : Compacted env t done t₁) (hruns : ∀ x ∈ done, x.1.Nodup)
    (hcluster : t.schema.clusterColumns = []) : Spares t done [] := by
  induction hdone with
  | nil t => exact fun id hid => nomatch hid
  | @cons t t₁ t' run rows done hrun hrest ih =>
      obtain ⟨hnodup, hothers⟩ := List.forall_mem_cons.mp hruns
      refine ⟨hnodup, .inl hcluster, ih hothers ?_⟩
      unfold Table.compactRun at hrun
      split at hrun
      · obtain ⟨-, rfl⟩ := Prod.mk.inj (Except.ok.inj hrun)
        exact hcluster
      · obtain ⟨rewrite, -, hrun⟩ := bind_eq_ok.mp hrun
        obtain ⟨⟨n, t₂⟩, hlocked, hrun⟩ := bind_eq_ok.mp hrun
        obtain ⟨-, rfl⟩ := Prod.mk.inj (Except.ok.inj hrun)
        change t₂.schema.clusterColumns = []
        rw [compactLocked_schema hlocked]
        exact hcluster

theorem compactSegments_spares {rows : Nat} (h : t.compactSegments env ids = .ok (rows, t')) (hids : ids.Nodup)
    (hcluster : t.schema.clusterColumns = []) : ∃ done, Returns env t ids done [] t' ∧ Spares t done [] := by
  obtain ⟨done, hreturns⟩ := compactSegments_returns h
  have hparts : ∀ {cut : List (List SegmentId)}, runs env t.pin.current ids = .ok cut → ∀ run ∈ cut, run.Nodup := by
    intro cut hcut run hrun
    rw [← flatten_runs hcut] at hids
    exact (List.nodup_flatten.mp hids).1 run hrun
  refine ⟨done, hreturns, ?_⟩
  cases hreturns with
  | none => exact fun id hid => nomatch hid
  | refused => exact fun id hid => nomatch hid
  | ok hcut hdone =>
      have hspares := hdone.spares (fun x hx => hparts hcut x.1 (List.mem_map_of_mem hx)) hcluster
      cases done <;> exact hspares
  | fails hcut hdone hfails =>
      have hspares := hdone.spares (fun x hx => hparts hcut x.1 (List.mem_append_left _ (List.mem_map_of_mem hx))) hcluster
      cases done <;> exact hspares

end Calls

section Twice

theorem twoRowTable_alone {positions : List Nat} {t : PlainTable} (h : twoRowTable positions = .ok t) : Alone dropEnv t := by
  obtain ⟨t₀, hcreate, h⟩ := bind_eq_ok.mp h
  obtain ⟨⟨_, t₁⟩, hinsert, h⟩ := bind_eq_ok.mp h
  obtain ⟨⟨_, t₂⟩, hflush, h⟩ := bind_eq_ok.mp h
  obtain ⟨⟨_, t₃⟩, hdelete, h⟩ := bind_eq_ok.mp h
  obtain ⟨hundeleted, h⟩ := ite_throw_eq_ok.mp h
  obtain rfl := Except.ok.inj h
  obtain ⟨h₀, h₁, h₂⟩ := not_not.mp hundeleted
  have hcreated : Alone dropEnv t₀ := .create _ _ _ hcreate
  have hinserted := hcreated.step ⟨.insert _ hinsert, insertLocked_schema hinsert⟩ fun ids _ _ => h₀.safely ids
  have hflushed := hinserted.step ⟨.flush hflush, flushLocked_schema hflush⟩ fun ids _ _ => h₁.safely ids
  exact hflushed.step ⟨.delete _ _ hdelete, delete_schema hdelete⟩ fun ids _ _ => h₂.safely ids

/-- A compaction of that table. -/
def compactTwoRow (positions : List Nat) (ids : List SegmentId) : Except Error (PlainTable × Nat × PlainTable) := do
  let t ← twoRowTable positions
  let (rows, t') ← t.compactSegments dropEnv ids
  return (t, rows, t')

theorem compactTwoRow_ok {positions : List Nat} {ids : List SegmentId} {t t' : PlainTable} {rows : Nat}
    (h : compactTwoRow positions ids = .ok (t, rows, t')) :
    Alone dropEnv t ∧ t.compactSegments dropEnv ids = .ok (rows, t') := by
  obtain ⟨t₀, htable, h⟩ := bind_eq_ok.mp h
  obtain ⟨⟨_, t₁⟩, hcompact, h⟩ := bind_eq_ok.mp h
  cases Except.ok.inj h
  exact ⟨twoRowTable_alone htable, hcompact⟩

/-- A segment with one row deleted. -/
theorem compact_half_deleted : ∃ (t t' : PlainTable) (done : List (List SegmentId × PlainTable)),
    t.compactSegments dropEnv [0] = .ok (1, t') ∧ Returns dropEnv t [0] done [] t' ∧
      ∀ t₁ ∈ done.map Prod.snd ++ [t'], KeepsTable dropEnv t [0] t₁ := by
  have hcheck : (match compactTwoRow [0] [0] with
      | .ok (t, rows, _) => decide (rows = 1 ∧ t.schema.clusterColumns = [])
      | .error _ => false) = true := by decide +kernel
  cases hrun : compactTwoRow [0] [0] with
  | error e =>
      rw [hrun] at hcheck
      cases hcheck
  | ok result =>
      obtain ⟨t, rows, t'⟩ := result
      rw [hrun] at hcheck
      obtain ⟨rfl, hcluster⟩ := of_decide_eq_true hcheck
      obtain ⟨halone, hcompact⟩ := compactTwoRow_ok hrun
      obtain ⟨done, hreturns, hspares⟩ := compactSegments_spares hcompact (List.nodup_singleton 0) hcluster
      exact ⟨t, t', done, hcompact, hreturns, (compact_segments_keeps_table halone hreturns).mpr hspares⟩

/-- A segment named twice in one run: its rows are there twice, and its extent is on the free list twice. -/
theorem segment_named_twice : ∃ t t' : PlainTable, Alone dropEnv t ∧ t.compactSegments dropEnv [0, 0] = .ok (4, t') ∧
    t.rows dropEnv = {[7], [8]} ∧ t'.rows dropEnv = {[7], [8], [7], [8]} ∧ ¬t'.writer.file.committed.manifest.freed.Nodup := by
  have hcheck : (match compactTwoRow [] [0, 0] with
      | .ok (t, rows, t') => decide (rows = 4 ∧ t.rows dropEnv = {[7], [8]} ∧ t'.rows dropEnv = {[7], [8], [7], [8]} ∧
          ¬t'.writer.file.committed.manifest.freed.Nodup)
      | .error _ => false) = true := by decide +kernel
  cases hrun : compactTwoRow [] [0, 0] with
  | error e =>
      rw [hrun] at hcheck
      cases hcheck
  | ok result =>
      obtain ⟨t, rows, t'⟩ := result
      rw [hrun] at hcheck
      obtain ⟨rfl, hfacts⟩ := of_decide_eq_true hcheck
      obtain ⟨halone, hcompact⟩ := compactTwoRow_ok hrun
      exact ⟨t, t', halone, hcompact, hfacts⟩

end Twice

end Table

end LocalTables
