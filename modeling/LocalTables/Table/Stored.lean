import LocalTables.Table.Contents
import LocalTables.Table.Tidy

/-! What is written while a commit is prepared, and that it stays there. A new segment holds the rows it was built from,
and every segment that was listed holds what it held. -/

namespace LocalTables

variable {τ ν : Type} {M : Media τ ν}

/-- Whatever was guarded still is, and reads the same. -/
def Pending.Keeps (minActive : Nat) (p p' : Pending M) : Prop :=
  ∀ e, Guarded minActive p.manifest e →
    Guarded minActive p'.manifest e ∧ ∀ k, M.read p'.io.file e k = M.read p.io.file e k

theorem Pending.Keeps.refl (minActive : Nat) (p : Pending M) : p.Keeps minActive p := fun _ he => ⟨he, fun _ => rfl⟩

theorem Pending.Keeps.trans {minActive : Nat} {p p' p'' : Pending M} (h : p.Keeps minActive p')
    (h' : p'.Keeps minActive p'') : p.Keeps minActive p'' := fun e he =>
  ⟨(h' e (h e he).1).1, fun k => ((h' e (h e he).1).2 k).trans ((h e he).2 k)⟩

namespace Drafted

variable {t t' : TableFile M} {allowed : Manifest → Nat → Nat → Prop} {minActive : Nat} {p p' : Pending M}

theorem edit_keeps (h : Drafted minActive t p) (hedit : Edit allowed minActive p p') : p.Keeps minActive p' := by
  intro e he
  obtain ⟨ops, hissued, -, hspares⟩ := hedit.issued
  have hin := h.guarded_inFile he
  have hops := hspares e hin fun len align halign hlen _ => h.guarded_apart he hlen halign
  refine ⟨he.imp id fun hsafe => hsafe.edit hedit, fun k => ?_⟩
  rw [hissued.2]
  exact (Media.applyAll_spared hops hin).2 k

theorem edits_keeps (h : Drafted minActive t p) (hedits : Edits allowed minActive p p') : p.Keeps minActive p' := by
  induction hedits with
  | refl => exact .refl minActive p
  | tail hedits hedit ih => exact ih.trans ((h.edits hedits).edit_keeps hedit)

theorem keeps (h : Drafted minActive t p) (hroomy : Roomy t) :
    Pending.Keeps minActive ⟨t.io, t.beginManifest⟩ p := by
  intro e he
  obtain ⟨ops, hissued, hspares⟩ := h.issued
  obtain ⟨hguarded, hops⟩ := hspares e he
  refine ⟨hguarded, fun k => ?_⟩
  rw [hissued.2]
  exact (Media.applyAll_spared hops ((Drafted.begin hroomy).guarded_inFile he)).2 k

theorem stores (h : Drafted minActive t p) (hmin : minActive ≤ t.committed.metaPage.txnId) (hkeeps : p.Keeps minActive p')
    {entry : SegmentEntry} (hentry : entry ∈ p.manifest.segments) {data : SegmentData ν}
    (hstores : entry.Stores p.io.file data) : entry.Stores p'.io.file data := by
  have hguarded := h.refs_guarded hmin (Manifest.mem_refs.mpr ⟨entry, hentry, .inl rfl⟩)
  exact ⟨((hkeeps _ hguarded).2 _).trans hstores.read, hstores.rows⟩

/-- The commit itself writes past the end of the file and over the older meta page. -/
theorem commit_stores (h : Drafted minActive t p) (hmin : minActive ≤ t.committed.metaPage.txnId)
    (hcommit : TableFile.commit { t with io := p.io } p.manifest = .ok t') {entry : SegmentEntry}
    (hentry : entry ∈ p.manifest.segments) {data : SegmentData ν} (hstores : entry.Stores p.io.file data) :
    entry.Stores t'.io.file data := by
  obtain ⟨ops, hissued, hspares⟩ := h.commit_issued hcommit
  have hmem := Manifest.mem_refs.mpr ⟨entry, hentry, .inl rfl⟩
  have hguarded := h.refs_guarded hmin hmem
  have hused := List.mem_append_right t.manifests hmem
  have hlow := (h.accounted.bounds (.inl hused) (h.refsPos _ hmem)).1
  refine ⟨?_, hstores.rows⟩
  rw [hissued.2]
  refine Eq.trans ?_ hstores.read
  exact (Media.applyAll_spared (hspares _ hguarded (TableFile.page_apart_of_dataStart _ hlow)) (h.guarded_inFile hguarded)).2 _

end Drafted

/-- Segments that were written while a commit was prepared, each under the same schema. -/
structure Wrote (current : TableSchema τ) (minActive : Nat) (p p' : Pending M)
    (new : List (SegmentEntry × SegmentData ν)) : Prop where
  segments : p'.manifest.segments = p.manifest.segments ++ new.map Prod.fst
  stores : ∀ x ∈ new, x.1.Stores p'.io.file x.2
  built : ∀ x ∈ new, x.2.columns = current.schema.fields.length ∧ x.2.schemaFingerprint = layoutCurrent current.layout
  fresh : ∀ x ∈ new, p.manifest.nextSegmentId ≤ x.1.segmentId
  next : p.manifest.nextSegmentId ≤ p'.manifest.nextSegmentId
  keeps : p.Keeps minActive p'

section Writes

variable {env : Env τ ν} {current : TableSchema τ} {minActive : Nat} {t : TableFile M} {p p' p'' : Pending M}
  {new new' : List (SegmentEntry × SegmentData ν)}

theorem Wrote.nil (current : TableSchema τ) (minActive : Nat) (p : Pending M) : Wrote current minActive p p [] :=
  ⟨(List.append_nil _).symm, by simp, by simp, by simp, le_rfl, .refl minActive p⟩

theorem Wrote.trans (hdrafted : Drafted minActive t p') (hmin : minActive ≤ t.committed.metaPage.txnId)
    (h : Wrote current minActive p p' new) (h' : Wrote current minActive p' p'' new') :
    Wrote current minActive p p'' (new ++ new') := by
  refine ⟨?_, fun x hx => ?_, fun x hx => ?_, fun x hx => ?_, h.next.trans h'.next, h.keeps.trans h'.keeps⟩
  · rw [h'.segments, h.segments, List.map_append, List.append_assoc]
  · rcases List.mem_append.mp hx with hx | hx
    · refine hdrafted.stores hmin h'.keeps ?_ (h.stores x hx)
      rw [h.segments]
      exact List.mem_append_right _ (List.mem_map_of_mem hx)
    · exact h'.stores x hx
  · exact (List.mem_append.mp hx).elim (h.built x) (h'.built x)
  · exact (List.mem_append.mp hx).elim (h.fresh x) fun hx => h.next.trans (h'.fresh x hx)

theorem buildSegment_ok [DecidableEq τ] {id : SegmentId} {batches : List (RecordBatch τ ν)} {built : SegmentData ν}
    (h : Table.buildSegment env id current batches = .ok built) :
    built.rows = rowsOf batches ∧ built.columns = current.schema.fields.length ∧
      built.schemaFingerprint = layoutCurrent current.layout := by
  unfold Table.buildSegment at h
  dsimp only at h
  split at h
  · rw [← Except.ok.inj h]
    exact ⟨rfl, rfl, rfl⟩
  · cases h

theorem writeSegment_wrote [DecidableEq τ] {batches : List (RecordBatch τ ν)} (hdrafted : Drafted minActive t p)
    (h : Table.writeSegment env current minActive p batches = .ok p') :
    ∃ new, Wrote current minActive p p' new ∧ (new.flatMap fun x => x.2.rows) = rowsOf batches := by
  have hkeeps := hdrafted.edits_keeps (writeSegment_edits h)
  rcases writeSegment_ok h with ⟨hzero, rfl⟩ | ⟨built, e, m, io, -, hbuild, hwrite, rfl⟩
  · refine ⟨[], .nil _ _ _, ?_⟩
    rw [← length_rowsOf] at hzero
    exact (List.length_eq_zero_iff.mp hzero).symm
  · obtain ⟨hrows, hcolumns, hfingerprint⟩ := buildSegment_ok hbuild
    obtain ⟨-, hsegments, hnext, -⟩ := writeAllocated_stamps isPowerOfTwo_segmentAlign hwrite
    obtain ⟨-, hread⟩ := writeAllocated_read isPowerOfTwo_segmentAlign hwrite
    let entry : SegmentEntry := ⟨p.manifest.nextSegmentId, e,
      ⟨e.offset + (M.metaExtent built).offset, (M.metaExtent built).len⟩, built.rows.length, 0, none⟩
    have hmeta : entry.metaAt = M.metaExtent built := by
      unfold SegmentEntry.metaAt
      dsimp only [entry]
      rw [Nat.add_sub_cancel_left]
    refine ⟨[(entry, built)], ⟨?_, fun x hx => ?_, fun x hx => ?_, fun x hx => ?_, ?_, hkeeps⟩, ?_⟩
    · dsimp only [Manifest.addSegment]
      rw [hsegments, hnext]
      rfl
    · rw [List.mem_singleton.mp hx]
      refine ⟨?_, rfl⟩
      rw [hmeta]
      exact hread
    · rw [List.mem_singleton.mp hx]
      exact ⟨hcolumns, hfingerprint⟩
    · rw [List.mem_singleton.mp hx]
    · dsimp only [Manifest.addSegment]
      rw [hnext]
      exact Nat.le_succ _
    · rw [List.flatMap_cons, List.flatMap_nil, List.append_nil]
      exact hrows

theorem writeSegments_wrote [DecidableEq τ] {groups : List (List (RecordBatch τ ν))} (hdrafted : Drafted minActive t p)
    (hmin : minActive ≤ t.committed.metaPage.txnId)
    (h : groups.foldlM (Table.writeSegment env current minActive) p = .ok p') :
    ∃ new, Wrote current minActive p p' new ∧ (new.flatMap fun x => x.2.rows) = rowsOf groups.flatten := by
  induction groups generalizing p with
  | nil =>
      rw [← Except.ok.inj h]
      exact ⟨[], .nil current minActive p, rfl⟩
  | cons group groups ih =>
      obtain ⟨p₁, hfirst, h⟩ := bind_eq_ok.mp h
      obtain ⟨first, hwrote, hrows⟩ := writeSegment_wrote hdrafted hfirst
      have hdrafted₁ := hdrafted.edits (writeSegment_edits hfirst)
      obtain ⟨rest, hrest, hmore⟩ := ih hdrafted₁ h
      refine ⟨first ++ rest, hwrote.trans hdrafted₁ hmin hrest, ?_⟩
      rw [List.flatMap_append, hrows, hmore, List.flatten_cons, rowsOf_append]

theorem convertSegments_wrote [DecidableEq τ] {before : TableSchema τ} {s : Snapshot τ ν} {sources : List SegmentEntry}
    (hdrafted : Drafted minActive t p) (hmin : minActive ≤ t.committed.metaPage.txnId)
    (h : Table.convertSegments env (Table.writeSegment env current minActive) s sources before current p = .ok p') :
    ∃ new, Wrote current minActive p p' new := by
  have hall : Drafted minActive t p' ∧ ∃ new, Wrote current minActive p p' new := by
    refine Table.convertSegments_ok (P := fun q : Pending M => Drafted minActive t q ∧ ∃ new, Wrote current minActive p q new)
      ?_ ⟨hdrafted, [], .nil current minActive p⟩ h
    rintro q batches q' ⟨hq, new, hwrote⟩ hstep
    obtain ⟨more, hmore, -⟩ := writeSegment_wrote hq hstep
    exact ⟨hq.edits (writeSegment_edits hstep), new ++ more, hwrote.trans hq hmin hmore⟩
  exact hall.2

end Writes

theorem SegmentEntry.Stores.body {file : M.File} {a b : SegmentEntry} {data : SegmentData ν} (h : a.Stores file data)
    (hbody : a.body = b.body) : b.Stores file data := by
  obtain ⟨-, hdata, hmeta, hrows⟩ := SegmentEntry.eq_of_body hbody
  have hat : b.metaAt = a.metaAt := by rw [metaAt, metaAt, hdata, hmeta]
  exact ⟨by rw [← hdata, hat]; exact h.read, h.rows.trans hrows⟩

/-- Every listed segment holds data of a kind. -/
def Manifest.All (m : Manifest) (file : M.File) (Q : SegmentData ν → Prop) : Prop :=
  ∀ entry ∈ m.segments, ∃ data, entry.Stores file data ∧ Q data

section All

variable {env : Env τ ν} {current : TableSchema τ} {minActive : Nat} {t t' : TableFile M} {p p' : Pending M}
  {new : List (SegmentEntry × SegmentData ν)} {Q : SegmentData ν → Prop}

theorem Manifest.All.keeps (h : p.manifest.All p.io.file Q) (hdrafted : Drafted minActive t p)
    (hmin : minActive ≤ t.committed.metaPage.txnId) (hkeeps : p.Keeps minActive p')
    (hbodies : ∀ entry ∈ p'.manifest.segments, ∃ old ∈ p.manifest.segments, old.body = entry.body) :
    p'.manifest.All p'.io.file Q := by
  intro entry hentry
  obtain ⟨old, hold, hbody⟩ := hbodies entry hentry
  obtain ⟨data, hstores, hdata⟩ := h old hold
  exact ⟨data, (hdrafted.stores hmin hkeeps hold hstores).body hbody, hdata⟩

theorem Manifest.All.wrote (h : p.manifest.All p.io.file Q) (hdrafted : Drafted minActive t p)
    (hmin : minActive ≤ t.committed.metaPage.txnId) (hwrote : Wrote current minActive p p' new)
    (hnew : ∀ x ∈ new, Q x.2) : p'.manifest.All p'.io.file Q := by
  intro entry hentry
  rw [hwrote.segments, List.mem_append] at hentry
  rcases hentry with hentry | hentry
  · obtain ⟨data, hstores, hdata⟩ := h entry hentry
    exact ⟨data, hdrafted.stores hmin hwrote.keeps hentry hstores, hdata⟩
  · obtain ⟨x, hx, rfl⟩ := List.mem_map.mp hentry
    exact ⟨x.2, hwrote.stores x hx, hnew x hx⟩

theorem Manifest.All.bitmaps (h : p.manifest.All p.io.file Q) (hdrafted : Drafted minActive t p)
    (hmin : minActive ≤ t.committed.metaPage.txnId) {deletes : SegmentId → Option (Finset Nat)} {ids : List SegmentId}
    (hok : ids.foldlM (Table.writeBitmap deletes minActive) p = .ok p') : p'.manifest.All p'.io.file Q := by
  refine h.keeps hdrafted hmin (hdrafted.edits_keeps (writeBitmaps_edits hok)) fun entry hentry => ?_
  have hmem : entry.body ∈ p.manifest.segments.map SegmentEntry.body :=
    (writeBitmaps_body hok).1 ▸ List.mem_map_of_mem hentry
  exact List.mem_map.mp hmem

theorem Manifest.segments_retire (m : Manifest) (ids : List SegmentId) (sources : List SegmentEntry) :
    (m.retire ids sources).segments = m.segments.filter fun entry => entry.segmentId ∉ ids := Manifest.segments_freeAll _

theorem Manifest.All.commit (h : p.manifest.All p.io.file Q) (hdrafted : Drafted minActive t p)
    (hmin : minActive ≤ t.committed.metaPage.txnId)
    (hcommit : TableFile.commit { t with io := p.io } p.manifest = .ok t') :
    t'.committed.manifest.All t'.io.file Q := by
  obtain ⟨-, -, -, -, hsegments, -⟩ := TableFile.commit_stamps hcommit
  intro entry hentry
  rw [hsegments] at hentry
  obtain ⟨data, hstores, hdata⟩ := h entry hentry
  exact ⟨data, hdrafted.commit_stores hmin hcommit hentry hstores, hdata⟩

end All

/-- What a snapshot knows of its segments is so: each holds as many rows as its entry says, and what is deleted are rows of
it. -/
structure Snapshot.Counted (file : M.File) (s : Snapshot τ ν) : Prop where
  stores : ∀ entry ∈ s.manifest.segments, ∃ data : SegmentData ν, entry.Stores file data
  bounded : ∀ entry ∈ s.manifest.segments, ∀ rows, s.deletes entry.segmentId = some rows →
    ∀ position ∈ rows, position < entry.rowCount

namespace Table

variable {env : Env τ ν} {t t' : Table M} {Q : SegmentData ν → Prop}

/-- Every segment of the table holds data of a kind. -/
def All (t : Table M) (Q : SegmentData ν → Prop) : Prop :=
  t.writer.file.committed.manifest.All t.writer.file.io.file Q

/-- Data of a kind that everything built under the schema in force is of. -/
def Built (t : Table M) (Q : SegmentData ν → Prop) : Prop :=
  ∀ data : SegmentData ν, data.columns = t.schema.schema.fields.length →
    data.schemaFingerprint = layoutCurrent t.schema.layout → Q data

theorem All.same (h : t.All Q) (hfile : t'.writer.file = t.writer.file) : t'.All Q := by
  unfold All
  rw [hfile]
  exact h

theorem Housed.min_le (h : t.Housed) : t.minActiveTxn ≤ t.writer.file.committed.metaPage.txnId := minActiveTxn_le h.synced

/-- A flush starts from the committed manifest, with its own stamps. -/
theorem Housed.stamped (h : t.Housed) (env : Env τ ν) : Drafted t.minActiveTxn t.writer.file
    ⟨t.writer.file.io, t.rotated.flushManifest (t.frozen env)⟩ := by
  have hstamp : Edit anyAllocation t.minActiveTxn ⟨t.writer.file.io, t.writer.file.beginManifest⟩
      ⟨t.writer.file.io, t.rotated.flushManifest (t.frozen env)⟩ :=
    .stamp (t.writer.nextLsn - 1) (max (t.frozen env).memtable.nextSeqno t.writer.file.committed.manifest.nextSeqno)
  exact (Drafted.begin h.roomy).edit hstamp

theorem All.flushLocked [DecidableEq τ] (h : t.All Q) (hhoused : t.Housed) (hbuilt : t.Built Q) {rows : Nat}
    (hok : t.flushLocked env = .ok (rows, t')) : t'.All Q := by
  rcases flushLocked_ok hok with ⟨-, rfl⟩ | ⟨pending, f, -, hpending, hcommit, rfl⟩
  · exact h
  · obtain ⟨groups, -, hwrite⟩ := bind_eq_ok.mp hpending
    obtain ⟨written, hwritten, hbitmaps⟩ := bind_eq_ok.mp hwrite
    have hstamped := hhoused.stamped env
    obtain ⟨new, hwrote, -⟩ := writeSegments_wrote hstamped hhoused.min_le hwritten
    have hdrafted := hstamped.edits (writeSegments_edits hwritten)
    have hstart : (t.rotated.flushManifest (t.frozen env)).All t.writer.file.io.file Q := h
    have hsegments := hstart.wrote hstamped hhoused.min_le hwrote fun x hx => hbuilt x.2 (hwrote.built x hx).1 (hwrote.built x hx).2
    have hall := hsegments.bitmaps hdrafted hhoused.min_le hbitmaps
    exact hall.commit (hdrafted.edits (writeBitmaps_edits hbitmaps)) hhoused.min_le hcommit

theorem All.retire {m : Manifest} {file : M.File} (h : m.All file Q) (ids : List SegmentId) (sources : List SegmentEntry) :
    (m.retire ids sources).All file Q := by
  intro entry hentry
  rw [Manifest.segments_retire] at hentry
  exact h entry (List.mem_of_mem_filter hentry)

theorem All.compactLocked [DecidableEq τ] (h : t.All Q) (hhoused : t.Housed) (hbuilt : t.Built Q) {rewrite : Rewrite τ ν}
    {rows : Nat} (hcurrent : rewrite.Current t.writer.file.committed.manifest)
    (hok : t.compactLocked env rewrite = .ok (rows, t')) : t'.All Q := by
  rcases compactLocked_ok hok with ⟨-, rfl⟩ | ⟨groups, pending, f, -, -, hpending, hcommit, rfl⟩
  · exact h
  · have hbegin : Drafted t.minActiveTxn t.writer.file ⟨t.writer.file.io, t.writer.file.beginManifest⟩ := .begin hhoused.roomy
    obtain ⟨new, hwrote, -⟩ := writeSegments_wrote hbegin hhoused.min_le hpending
    have hedits := compactLocked_edits hhoused.numbered hcurrent hpending
    have hstart : t.writer.file.beginManifest.All t.writer.file.io.file Q := h
    have hsegments := hstart.wrote hbegin hhoused.min_le hwrote fun x hx => hbuilt x.2 (hwrote.built x hx).1 (hwrote.built x hx).2
    have hall := All.retire hsegments rewrite.ids rewrite.sources
    rw [Writer.forgetAll_eq]
    exact hall.commit (hbegin.edits hedits) hhoused.min_le hcommit

theorem All.deleteSegments (h : t.All Q) (hhoused : t.Housed) {segmentIds : List SegmentId} {deleted : Nat}
    (hok : t.deleteSegments segmentIds = .ok (deleted, t')) : t'.All Q := by
  rcases deleteSegments_ok hok with ⟨-, rfl⟩ | ⟨-, f, hcommit, rfl⟩
  · rw [Writer.forgetAll_eq]
    exact h
  · have hbegin : Drafted t.minActiveTxn t.writer.file ⟨t.writer.file.io, t.writer.file.beginManifest⟩ := .begin hhoused.roomy
    have hretire : Edit anyAllocation t.minActiveTxn ⟨t.writer.file.io, t.writer.file.beginManifest⟩
        ⟨t.writer.file.io, t.writer.file.beginManifest.retire segmentIds (t.dropped segmentIds)⟩ := .retire _ _ (.refl _)
    have hstart : t.writer.file.beginManifest.All t.writer.file.io.file Q := h
    have hall := All.retire hstart segmentIds (t.dropped segmentIds)
    rw [Writer.forgetAll_eq]
    exact hall.commit (hbegin.edit hretire) hhoused.min_le hcommit

/-- A schema change keeps the segments it does not rewrite. -/
theorem All.setSchemaLocked [DecidableEq τ] (h : t.All Q) (hhoused : t.Housed) {before after : TableSchema τ}
    {s : Snapshot τ ν} (hok : t.setSchemaLocked env before after false s = .ok t') : t'.All Q := by
  obtain ⟨t₁, hchange, rfl⟩ := setSchemaLocked_ok hok
  obtain ⟨-, extent, file, hwrite, ⟨-, f, hcommit, rfl⟩ | ⟨hfalse, -⟩⟩ := commitSchema_ok hchange
  · obtain ⟨-, hdrafted⟩ := Drafted.beginSchema t.minActiveTxn hhoused.roomy hwrite
    have hbegin : Drafted t.minActiveTxn t.writer.file ⟨t.writer.file.io, t.writer.file.beginManifest⟩ := .begin hhoused.roomy
    have hstart : t.writer.file.beginManifest.All t.writer.file.io.file Q := h
    have hall := hstart.keeps hbegin hhoused.min_le (hdrafted.keeps hhoused.roomy) fun entry hentry => ⟨entry, hentry, rfl⟩
    have hcommitted := hall.commit hdrafted hhoused.min_le hcommit
    exact hcommitted
  · cases hfalse

/-- One that rewrites keeps what it did not capture, and the rest is built anew. -/
theorem Housed.rewrites [DecidableEq τ] (hhoused : t.Housed) {before after : TableSchema τ} {s : Snapshot τ ν}
    (hcaptured : s.Captured t.writer.file.committed.manifest)
    (hkept : ∀ entry ∈ t.writer.file.committed.manifest.segments, entry.segmentId ∉ s.liveSegments.map SegmentEntry.segmentId →
      ∃ data, entry.Stores t.writer.file.io.file data ∧ Q data)
    (hok : t.setSchemaLocked env before after true s = .ok t') (hbuilt : t'.Built Q) : t'.All Q := by
  obtain ⟨t₁, hchange, rfl⟩ := setSchemaLocked_ok hok
  obtain ⟨-, extent, file, hwrite, ⟨hfalse, -⟩ | ⟨-, pending, f, hpending, hcommit, rfl⟩⟩ := commitSchema_ok hchange
  · cases hfalse
  · obtain ⟨-, hdrafted⟩ := Drafted.beginSchema t.minActiveTxn hhoused.roomy hwrite
    have hbegin : Drafted t.minActiveTxn t.writer.file ⟨t.writer.file.io, t.writer.file.beginManifest⟩ := .begin hhoused.roomy
    obtain ⟨new, hwrote⟩ := convertSegments_wrote hdrafted hhoused.min_le hpending
    have hnumbered : ({ t.writer.file.beginManifest with schema := extent } : Manifest).Numbered :=
      hhoused.numbered.congr rfl rfl
    have hedits := convertSegments_retire hnumbered ⟨hcaptured.nodup, hcaptured.unchanged⟩ hpending
    have hkeeps := (hdrafted.keeps hhoused.roomy).trans hwrote.keeps
    have hall : (pending.manifest.retire (s.liveSegments.map SegmentEntry.segmentId) s.liveSegments).All pending.io.file Q := by
      intro entry hentry
      rw [Manifest.segments_retire] at hentry
      obtain ⟨hentry, hnot⟩ := List.mem_filter.mp hentry
      rw [hwrote.segments, List.mem_append] at hentry
      rcases hentry with hentry | hentry
      · obtain ⟨data, hstores, hdata⟩ := hkept entry hentry (of_decide_eq_true hnot)
        exact ⟨data, hbegin.stores hhoused.min_le hkeeps hentry hstores, hdata⟩
      · obtain ⟨x, hx, rfl⟩ := List.mem_map.mp hentry
        exact ⟨x.2, hwrote.stores x hx, hbuilt x.2 (hwrote.built x hx).1 (hwrote.built x hx).2⟩
    have hcommitted := hall.commit (hdrafted.edits hedits) hhoused.min_le hcommit
    rw [Writer.forgetAll_eq]
    exact hcommitted

/-- Holding the lock keeps the kind of what is stored, if what is built is of that kind. -/
theorem Locked.all [DecidableEq τ] (h : t.All Q) (hhoused : t.Housed) (hbuilt : t.Built Q) (hstep : Locked env t t') :
    t'.All Q := by
  cases hstep with
  | insert batches hok =>
      rcases (insertLocked_ok hok).2 with ⟨-, rfl⟩ | ⟨-, -, happend⟩
      · exact h
      · obtain ⟨frames, wal, -, -, rfl⟩ := appendRows_ok happend
        exact h
  | delete segmentDeletions memtableSeqnos hok =>
      rcases delete_ok hok with ⟨rfl, -⟩ | ⟨planned, frame, wal, -, -, -, rfl⟩
      · exact h
      · rw [applyDeletes_snd]
        exact h
  | update segmentDeletions memtableSeqnos replacements hok =>
      rcases updateLocked_ok hok with ⟨rfl, -⟩ | ⟨-, hreplace⟩
      · exact h
      · obtain ⟨planned, -, ⟨rfl, -⟩ | ⟨merged, frame, wal, -, -, -, rfl⟩⟩ := replaceRows_ok hreplace
        · exact h
        · rw [applyDeletes_snd]
          exact h
  | flush hok => exact h.flushLocked hhoused hbuilt hok
  | compact ids hids hread hok => exact h.compactLocked hhoused hbuilt (compactRead_current hhoused.synced hids hread) hok
  | deleteSegments segmentIds hok => exact h.deleteSegments hhoused hok
  | setSchema before after s hok => exact h.setSchemaLocked hhoused hok
  | pin => exact h
  | unpin index => exact h

/-- A locked step publishes what the writer holds, or leaves that and what readers are shown alone, but for a drop that finds
no live row. -/
theorem Locked.published [DecidableEq τ] (hstep : Locked env t t') : t'.current = t'.writer.snapshot t'.schema ∨
    t'.current = t.current ∧ t'.writer.deletes = t.writer.deletes ∨
    ∃ segmentIds deleted, t.deleteSegments segmentIds = .ok (deleted, t') := by
  cases hstep with
  | insert batches hok =>
      rcases (insertLocked_ok hok).2 with ⟨-, rfl⟩ | ⟨-, -, happend⟩
      · exact .inr (.inl ⟨rfl, rfl⟩)
      · obtain ⟨frames, wal, -, -, rfl⟩ := appendRows_ok happend
        exact .inl rfl
  | delete segmentDeletions memtableSeqnos hok =>
      rcases delete_ok hok with ⟨rfl, -⟩ | ⟨planned, frame, wal, -, -, -, rfl⟩
      · exact .inr (.inl ⟨rfl, rfl⟩)
      · exact .inl rfl
  | update segmentDeletions memtableSeqnos replacements hok =>
      rcases updateLocked_ok hok with ⟨rfl, -⟩ | ⟨-, hreplace⟩
      · exact .inr (.inl ⟨rfl, rfl⟩)
      · obtain ⟨planned, -, ⟨rfl, -⟩ | ⟨merged, frame, wal, -, -, -, rfl⟩⟩ := replaceRows_ok hreplace
        · exact .inr (.inl ⟨rfl, rfl⟩)
        · exact .inl rfl
  | flush hok =>
      rcases flushLocked_ok hok with ⟨-, rfl⟩ | ⟨pending, f, -, -, -, rfl⟩
      · exact .inr (.inl ⟨rfl, rfl⟩)
      · exact .inl rfl
  | compact ids hids hread hok =>
      rcases compactLocked_ok hok with ⟨-, rfl⟩ | ⟨groups, pending, f, -, -, -, -, rfl⟩
      · exact .inr (.inl ⟨rfl, rfl⟩)
      · exact .inl rfl
  | deleteSegments segmentIds hok => exact .inr (.inr ⟨segmentIds, _, hok⟩)
  | setSchema before after s hok =>
      obtain ⟨t₁, hchange, rfl⟩ := setSchemaLocked_ok hok
      exact .inl rfl
  | pin => exact .inr (.inl ⟨rfl, rfl⟩)
  | unpin index => exact .inr (.inl ⟨rfl, rfl⟩)

/-- What readers are shown after a locked step is what they were shown before, or what the writer holds. -/
theorem Locked.current [DecidableEq τ] (hstep : Locked env t t') :
    t'.current = t.current ∨ t'.current = t'.writer.snapshot t'.schema := by
  rcases hstep.published with hpublished | ⟨hsame, -⟩ | ⟨segmentIds, deleted, hok⟩
  · exact .inr hpublished
  · exact .inl hsame
  · rcases deleteSegments_ok hok with ⟨-, rfl⟩ | ⟨-, f, -, rfl⟩
    · exact .inl rfl
    · exact .inr rfl

theorem Tidy.counted (h : t.Tidy) (hall : t.All fun _ => True) :
    (t.writer.snapshot t.schema).Counted t.writer.file.io.file := by
  refine ⟨fun entry hentry => ?_, fun entry hentry rows hrows => ?_⟩
  · obtain ⟨data, hstores, -⟩ := hall entry hentry
    exact ⟨data, hstores⟩
  · exact h.bounded entry hentry rows (Option.filter_eq_some_iff.mp hrows).1

section Counted

variable [DecidableEq τ]

theorem Stirs.current (hstep : Stirs env t t') : t'.current = t.current ∨ t'.current = t'.writer.snapshot t'.schema := by
  cases hstep with
  | locked hstep => exact hstep.current
  | rewrite before after s hcaptured hok =>
      obtain ⟨t₁, hchange, rfl⟩ := setSchemaLocked_ok hok
      exact .inr rfl

theorem Stirs.tidy (hstep : Stirs env t t') (h : t.Tidy) : t'.Tidy := by
  cases hstep with
  | locked hstep => exact hstep.tidy h
  | rewrite before after s hcaptured hok => exact h.setSchemaLocked hok

/-- Every listed segment stands where its entry points, with as many rows as the entry says. -/
theorem Stirs.stores (hstep : Stirs env t t') (hhoused : t.Housed) (h : t.All fun _ => True) : t'.All fun _ => True := by
  cases hstep with
  | locked hstep => exact hstep.all h hhoused fun _ _ _ => trivial
  | rewrite before after s hcaptured hok =>
      exact hhoused.rewrites hcaptured (fun entry hentry _ => h entry hentry) hok fun _ _ _ => trivial

/-- A snapshot that is shown stays as it was counted. -/
theorem Stirs.counted (hstep : Stirs env t t') (hhoused : t.Housed) {s : Snapshot τ ν} (hs : t.Shown s)
    (h : s.Counted t.writer.file.io.file) : s.Counted t'.writer.file.io.file := by
  refine ⟨fun entry hentry => ?_, h.bounded⟩
  obtain ⟨data, hstores⟩ := h.stores entry hentry
  have hreads := hstep.reads hhoused hs (Manifest.mem_refs.mpr ⟨entry, hentry, .inl rfl⟩) (.segment entry.metaAt)
  exact ⟨data, hreads.trans hstores.read, hstores.rows⟩

/-- A snapshot somebody holds was held before, or was the one shown. -/
theorem Stirs.pins (hstep : Stirs env t t') (hhoused : t.Housed) {s : Snapshot τ ν} (hs : s ∈ t'.pins) : t.Shown s := by
  rcases hstep.shifts hhoused with hshifts | rfl | ⟨index, rfl⟩
  · exact .inr (hshifts.pins ▸ hs)
  · exact List.mem_cons.mp hs
  · exact .inr (List.mem_of_mem_eraseIdx hs)

/-- The counts a table shows, and those of the snapshots readers hold, are right. -/
structure Counts (t : Table M) : Prop where
  tidy : t.Tidy
  all : t.All fun _ => True
  shown : ∀ s, t.Shown s → s.Counted t.writer.file.io.file

theorem Stirs.counts (hstep : Stirs env t t') (hhoused : t.Housed) (h : t.Counts) : t'.Counts := by
  have htidy := hstep.tidy h.tidy
  have hall := hstep.stores hhoused h.all
  refine ⟨htidy, hall, ?_⟩
  rintro s (rfl | hs)
  · rcases hstep.current with hcurrent | hcurrent
    · rw [hcurrent]
      exact hstep.counted hhoused (.inl rfl) (h.shown _ (.inl rfl))
    · rw [hcurrent]
      exact htidy.counted hall
  · have hshown := hstep.pins hhoused hs
    exact hstep.counted hhoused hshown (h.shown s hshown)

theorem Stirred.counts (hrun : Stirred env t) : t.Counts := by
  induction hrun with
  | create schema fingerprint newTableUuid h =>
      obtain ⟨file, seed, current, -, hfresh, hcurrent, rfl⟩ := create_ok h
      have htidy : (freshTable file current).Tidy := .created hfresh hcurrent
      have hall : (freshTable file current : Table M).All fun _ => True := by
        change file.committed.manifest.All file.io.file _
        rw [hfresh.manifest]
        exact fun _ hentry => (nomatch hentry)
      refine ⟨htidy, hall, ?_⟩
      rintro s (rfl | hs)
      · exact htidy.counted hall
      · cases hs
  | step hrun hstep ih => exact hstep.counts hrun.housed ih

end Counted

end Table

end LocalTables
