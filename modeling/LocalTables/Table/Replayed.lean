import LocalTables.Lib.Simulation
import LocalTables.Table.Held
import LocalTables.Table.Log

/-! What replaying the log gives. A replay that starts from the file as it was opened, and goes over the records no flush
has folded in, ends with the memtable and the deletions the writer had: it mirrors the writer. Where a commit has meanwhile
dropped segments and listed new ones, the replay over the new file keeps track of the replay over the old one. -/

namespace LocalTables

variable {τ ν : Type} {M : Media τ ν}

/-- The segments a record deletes rows of. -/
def WalRecord.names : WalRecord τ ν → List SegmentId
  | insert _ _ _ => []
  | delete _ segments _ => segments.map SegmentDeletes.segmentId
  | update _ segments _ _ _ => segments.map SegmentDeletes.segmentId

/-- A segment of this id is listed. -/
def Manifest.Lists (m : Manifest) (id : SegmentId) : Prop := ∃ entry ∈ m.segments, entry.segmentId = id

theorem Manifest.segment_eq_none {m : Manifest} {id : SegmentId} : m.segment id = none ↔ ¬m.Lists id := by
  rw [Manifest.segment, List.find?_eq_none]
  constructor
  · rintro h ⟨entry, hentry, hid⟩
    exact h entry hentry (by simpa using hid)
  · intro h entry hentry hid
    exact h ⟨entry, hentry, by simpa using hid⟩

theorem Manifest.lists_of_segment {m : Manifest} {id : SegmentId} {entry : SegmentEntry} (h : m.segment id = some entry) :
    m.Lists id := ⟨entry, Manifest.Numbered.mem_of_segment h⟩

/-- Deletions that agree on a segment still do once the same ones have been recorded. -/
theorem markDeletes_getD {deletes deletes' : SegmentId → Option (Finset Nat)} (segments : List (SegmentId × Finset Nat))
    {id : SegmentId} (h : (deletes id).getD ∅ = (deletes' id).getD ∅) :
    (markDeletes deletes segments id).getD ∅ = (markDeletes deletes' segments id).getD ∅ := by
  induction segments generalizing deletes deletes' with
  | nil => exact h
  | cons segment segments ih =>
      rw [markDeletes_cons, markDeletes_cons]
      apply ih
      by_cases hid : id = segment.1
      · rw [hid, Function.update_self, Function.update_self]
      · rw [Function.update_of_ne hid, Function.update_of_ne hid, h]

section Records

variable {env : Env τ ν}

theorem decodeBatch_encodeBatch [DecidableEq τ] {batch : RecordBatch τ ν} {schema : Schema τ}
    (hfields : batch.fields = schema.fields) : decodeBatch env (encodeBatch batch) schema = .ok batch := by
  have hlength : (encodeBatch batch).columns.length = schema.fields.length := by
    rw [encodeBatch, List.length_map, hfields]
  have htypes : (encodeBatch batch).columns = schema.fields.map Field.dataType := by rw [encodeBatch, hfields]
  unfold decodeBatch
  rw [if_neg (not_not.mpr hlength), if_pos htypes, ← hfields]
  rfl

/-- Where every segment named is listed, all the logged deletions are recorded. -/
theorem applyLoggedDeletes_eq (w : Writer M) {segments : List SegmentDeletes}
    (h : ∀ logged ∈ segments, w.file.committed.manifest.Lists logged.segmentId) :
    applyLoggedDeletes w segments = { w with
      deletes := markDeletes w.deletes (segments.map fun logged => (logged.segmentId, logged.rows))
      dirtyDeletes := markDirty w.dirtyDeletes (segments.map fun logged => (logged.segmentId, logged.rows)) } := by
  induction segments generalizing w with
  | nil => rfl
  | cons logged segments ih =>
      have hlisted : w.file.committed.manifest.segment logged.segmentId ≠ none := fun hnone =>
        Manifest.segment_eq_none.mp hnone (h logged List.mem_cons_self)
      have hstep : applyLoggedDeletes w (logged :: segments) =
          applyLoggedDeletes (w.mark logged.segmentId logged.rows) segments := by
        unfold applyLoggedDeletes
        rw [List.foldl_cons]
        congr 1
        split
        · next hnone => exact absurd hnone hlisted
        · rfl
      rw [hstep, ih (w.mark logged.segmentId logged.rows) fun other hother => h other (List.mem_cons_of_mem _ hother)]
      rfl

theorem Memtable.schema_insertAt (m : Memtable τ ν) (baseSeqno : Nat) (batch : RecordBatch τ ν) :
    (m.insertAt env baseSeqno batch).schema = m.schema := by
  unfold Memtable.insertAt
  split
  · rfl
  · rfl

theorem Memtable.schema_insertAll (m : Memtable τ ν) (planned : List (Nat × RecordBatch τ ν)) :
    (planned.foldl (fun memtable (seqno, batch) => memtable.insertAt env seqno batch) m).schema = m.schema := by
  induction planned generalizing m with
  | nil => rfl
  | cons entry planned ih => rw [List.foldl_cons, ih, Memtable.schema_insertAt]

theorem planInserts_names {lsn seqno : Nat} {batches : List (RecordBatch τ ν)} {record : WalRecord τ ν}
    (h : record ∈ (Table.planInserts lsn seqno batches).1) : record.names = [] := by
  induction batches generalizing lsn seqno with
  | nil => cases h
  | cons batch batches ih =>
      rw [planInserts_cons] at h
      split at h
      · exact ih h
      · rcases List.mem_cons.mp h with rfl | h
        · rfl
        · exact ih h

/-- Replaying an insert puts its batches in the memtable as the insert did. -/
theorem replay_planInserts [DecidableEq τ] {w : Writer M} {lsn seqno : Nat} {batches : List (RecordBatch τ ν)}
    (hfields : ∀ batch ∈ batches, batch.fields = w.memtable.schema.fields) :
    (Table.planInserts lsn seqno batches).1.foldlM (replayRecord env) w = .ok { w with
      memtable := (Table.planInserts lsn seqno batches).2.foldl
        (fun memtable (seqno, batch) => memtable.insertAt env seqno batch) w.memtable } := by
  induction batches generalizing w lsn seqno with
  | nil => rfl
  | cons batch batches ih =>
      have hrest : ∀ other ∈ batches, other.fields = w.memtable.schema.fields := fun other hother =>
        hfields other (List.mem_cons_of_mem _ hother)
      rw [planInserts_cons]
      split
      · exact ih hrest
      · rw [List.foldlM_cons, replayRecord, decodeBatch_encodeBatch (hfields batch List.mem_cons_self)]
        exact ih (w := { w with memtable := w.memtable.insertAt env seqno batch }) (by rwa [Memtable.schema_insertAt])

end Records

namespace Writer

/-- What a replay gave stands for the writer: the same memtable as far as it shows, and the same deletions of the segments
listed. -/
structure Mirrors (schema : Schema τ) (w w' : Writer M) : Prop where
  manifest : w.file.committed.manifest = w'.file.committed.manifest
  wf : w.memtable.Wf
  schema : w.memtable.schema = schema
  live : w.memtable.live = w'.memtable.live
  nextSeqno : w.memtable.nextSeqno = w'.memtable.nextSeqno
  deletes : ∀ id, w'.file.committed.manifest.Lists id → (w.deletes id).getD ∅ = (w'.deletes id).getD ∅
  listed : ∀ id rows, w.deletes id = some rows → w'.file.committed.manifest.Lists id

/-- A replay over a file whose new segments start at `bound` keeps track of one over the file before. -/
structure Tracks (bound : SegmentId) (w w' : Writer M) : Prop where
  memtable : w'.memtable = w.memtable
  kept : ∀ id, w'.file.committed.manifest.Lists id → id < bound → w.file.committed.manifest.Lists id
  deletes : ∀ id, w'.file.committed.manifest.Lists id → id < bound → (w'.deletes id).getD ∅ = (w.deletes id).getD ∅
  new : ∀ id, bound ≤ id → (w'.deletes id).getD ∅ = ∅
  listed : ∀ id rows, w'.deletes id = some rows → w'.file.committed.manifest.Lists id

/-- Deletions not in the log are those that were read from the file. -/
def Kept (stored : SegmentId → Option (Finset Nat)) (w : Writer M) : Prop :=
  ∀ id, id ∉ w.dirtyDeletes → w.deletes id = stored id

section Mirrors

variable {env : Env τ ν} {schema : Schema τ} {w w' : Writer M}

/-- A deletion that was carried out and one that is replayed. -/
theorem Mirrors.marked (h : w.Mirrors schema w') {segments : List (SegmentId × Finset Nat)}
    (hlisted : ∀ segment ∈ segments, w'.file.committed.manifest.Lists segment.1) (removed : List Nat) {u u' : Writer M}
    (hmanifest : u.file.committed.manifest = w.file.committed.manifest)
    (hmanifest' : u'.file.committed.manifest = w'.file.committed.manifest)
    (hdeletes : u.deletes = markDeletes w.deletes segments) (hdeletes' : u'.deletes = markDeletes w'.deletes segments)
    (hmemtable : u.memtable = (w.memtable.delete removed).2) (hmemtable' : u'.memtable = (w'.memtable.delete removed).2) :
    u.Mirrors schema u' where
  manifest := by rw [hmanifest, hmanifest', h.manifest]
  wf := hmemtable ▸ h.wf.delete removed
  schema := by rw [hmemtable, Memtable.delete_snd, h.schema]
  live := by rw [hmemtable, hmemtable', Memtable.live_delete, Memtable.live_delete, h.live]
  nextSeqno := by rw [hmemtable, hmemtable', Memtable.delete_snd, Memtable.delete_snd, h.nextSeqno]
  deletes id hid := by
    rw [hdeletes, hdeletes']
    apply markDeletes_getD
    exact h.deletes id (hmanifest' ▸ hid)
  listed id rows hrows := by
    rw [hdeletes] at hrows
    rw [hmanifest']
    rcases markDeletes_some hrows with hold | hnew
    · exact h.listed id rows hold
    · exact hlisted _ hnew

/-- Rows that were put in the memtable and rows that are replayed. -/
theorem Mirrors.inserted (h : w.Mirrors schema w') (hwf : w'.memtable.Wf) {batch : RecordBatch τ ν} {u u' : Writer M}
    (hfile : u.file = w.file) (hfile' : u'.file = w'.file) (hdeletes : u.deletes = w.deletes)
    (hdeletes' : u'.deletes = w'.deletes)
    (hmemtable : u.memtable = w.memtable.insertAt env w'.memtable.nextSeqno batch)
    (hmemtable' : u'.memtable = w'.memtable.insertAt env w'.memtable.nextSeqno batch) : u.Mirrors schema u' where
  manifest := by rw [hfile, hfile', h.manifest]
  wf := hmemtable ▸ h.wf.insertAt env h.nextSeqno.le batch
  schema := by rw [hmemtable, Memtable.schema_insertAt, h.schema]
  live := by
    rw [hmemtable, hmemtable', Memtable.live_insertAt h.wf env h.nextSeqno.le, Memtable.live_insertAt hwf env le_rfl, h.live]
  nextSeqno := by
    rw [hmemtable, hmemtable']
    unfold Memtable.insertAt
    split
    · exact h.nextSeqno
    · change max _ _ = max _ _
      rw [h.nextSeqno]
  deletes id hid := by
    rw [hdeletes, hdeletes']
    exact h.deletes id (hfile' ▸ hid)
  listed id rows hrows := by
    rw [hfile']
    exact h.listed id rows (hdeletes ▸ hrows)

/-- What stands for a writer stands for one that shows the same. -/
theorem Mirrors.same (h : w.Mirrors schema w') {u : Writer M}
    (hmanifest : u.file.committed.manifest = w'.file.committed.manifest) (hlive : u.memtable.live = w'.memtable.live)
    (hnext : u.memtable.nextSeqno = w'.memtable.nextSeqno)
    (hdeletes : ∀ id, w'.file.committed.manifest.Lists id → (u.deletes id).getD ∅ = (w'.deletes id).getD ∅) :
    w.Mirrors schema u where
  manifest := by rw [hmanifest, h.manifest]
  wf := h.wf
  schema := h.schema
  live := by rw [hlive, h.live]
  nextSeqno := by rw [hnext, h.nextSeqno]
  deletes id hid := by
    rw [hmanifest] at hid
    rw [hdeletes id hid, h.deletes id hid]
  listed id rows hrows := by
    rw [hmanifest]
    exact h.listed id rows hrows

/-- A replay that keeps track of one that mirrors a writer mirrors the writer that went over to the new file. -/
theorem Mirrors.tracked (h : w.Mirrors schema w') {bound : SegmentId} {u u' : Writer M} (htracks : w.Tracks bound u)
    (hmanifest : u.file.committed.manifest = u'.file.committed.manifest) (hmemtable : u'.memtable = w'.memtable)
    (hdeletes : ∀ id, u'.file.committed.manifest.Lists id → id < bound → (u'.deletes id).getD ∅ = (w'.deletes id).getD ∅)
    (hnew : ∀ id, u'.file.committed.manifest.Lists id → bound ≤ id → (u'.deletes id).getD ∅ = ∅) :
    u.Mirrors schema u' where
  manifest := hmanifest
  wf := by rw [htracks.memtable]; exact h.wf
  schema := by rw [htracks.memtable]; exact h.schema
  live := by rw [htracks.memtable, hmemtable, h.live]
  nextSeqno := by rw [htracks.memtable, hmemtable, h.nextSeqno]
  deletes id hid := by
    have hlisted : u.file.committed.manifest.Lists id := hmanifest ▸ hid
    by_cases hbound : id < bound
    · have hold := htracks.kept id hlisted hbound
      rw [h.manifest] at hold
      rw [htracks.deletes id hlisted hbound, hdeletes id hid hbound, h.deletes id hold]
    · have hbound' : bound ≤ id := Nat.not_lt.mp hbound
      rw [htracks.new id hbound', hnew id hid hbound']
  listed id rows hrows := by
    rw [← hmanifest]
    exact htracks.listed id rows hrows

end Mirrors

section Tracks

variable {env : Env τ ν} {bound : SegmentId} {w w' : Writer M}

/-- A deletion recorded in both, of a segment that was there before. -/
theorem Tracks.mark (h : w.Tracks bound w') {id : SegmentId} (hid : id < bound) (rows : Finset Nat)
    (hlisted : w'.file.committed.manifest.Lists id) : (w.mark id rows).Tracks bound (w'.mark id rows) where
  memtable := h.memtable
  kept := h.kept
  deletes other hother hbound := by
    by_cases hsame : other = id
    · simp [Writer.mark, hsame]
    · simp only [Writer.mark, Function.update_of_ne hsame]
      exact h.deletes other hother hbound
  new other hbound := by
    have hne : other ≠ id := (hid.trans_le hbound).ne'
    simp only [Writer.mark, Function.update_of_ne hne]
    exact h.new other hbound
  listed other rows' hrows := by
    by_cases hsame : other = id
    · exact hsame ▸ hlisted
    · simp only [Writer.mark, Function.update_of_ne hsame] at hrows
      exact h.listed other rows' hrows

/-- A deletion recorded only over the old file, of a segment that has been dropped since. -/
theorem Tracks.mark_dropped (h : w.Tracks bound w') {id : SegmentId} (rows : Finset Nat)
    (hdropped : ¬w'.file.committed.manifest.Lists id) : (w.mark id rows).Tracks bound w' where
  memtable := h.memtable
  kept := h.kept
  deletes other hother hbound := by
    have hne : other ≠ id := fun hsame => hdropped (hsame ▸ hother)
    simp only [Writer.mark, Function.update_of_ne hne]
    exact h.deletes other hother hbound
  new := h.new
  listed := h.listed

theorem Tracks.applyLoggedDeletes (h : w.Tracks bound w') {segments : List SegmentDeletes}
    (hnames : ∀ logged ∈ segments, logged.segmentId < bound) :
    (applyLoggedDeletes w segments).Tracks bound (applyLoggedDeletes w' segments) := by
  induction segments generalizing w w' with
  | nil => exact h
  | cons logged segments ih =>
      have hbound := hnames logged List.mem_cons_self
      unfold LocalTables.applyLoggedDeletes
      rw [List.foldl_cons, List.foldl_cons]
      refine ih ?_ fun other hother => hnames other (List.mem_cons_of_mem _ hother)
      split
      · next hgone =>
          split
          · exact h
          · next hthere =>
              have hold := h.kept _ (Manifest.lists_of_segment hthere) hbound
              exact absurd hold (Manifest.segment_eq_none.mp hgone)
      · split
        · next hdropped => exact h.mark_dropped _ (Manifest.segment_eq_none.mp hdropped)
        · next hthere => exact h.mark hbound _ (Manifest.lists_of_segment hthere)

theorem Tracks.withMemtable (h : w.Tracks bound w') (memtable : Memtable τ ν) :
    Tracks bound { w with memtable := memtable } { w' with memtable := memtable } :=
  ⟨rfl, h.kept, h.deletes, h.new, h.listed⟩

/-- Replaying a record over the new file keeps track of replaying it over the old one. -/
theorem Tracks.replayRecord [DecidableEq τ] (h : w.Tracks bound w') {record : WalRecord τ ν}
    (hnames : ∀ id ∈ record.names, id < bound) {u : Writer M} (hok : replayRecord env w record = .ok u) :
    ∃ u', replayRecord env w' record = .ok u' ∧ u.Tracks bound u' := by
  cases record with
  | insert lsn baseSeqno batch =>
      obtain ⟨decoded, hdecoded, hok⟩ := bind_eq_ok.mp hok
      obtain rfl := Except.ok.inj hok
      rw [← h.memtable] at hdecoded
      refine ⟨_, bind_eq_ok.mpr ⟨decoded, hdecoded, rfl⟩, ?_⟩
      rw [h.memtable]
      exact h.withMemtable _
  | delete lsn segments memtableRows =>
      obtain rfl := Except.ok.inj hok
      have hbounds : ∀ logged ∈ segments, logged.segmentId < bound := fun logged hlogged =>
        hnames _ (List.mem_map_of_mem hlogged)
      have happlied := h.applyLoggedDeletes hbounds
      refine ⟨_, rfl, ?_⟩
      rw [happlied.memtable]
      exact happlied.withMemtable _
  | update lsn segments memtableRows baseSeqno batch =>
      obtain ⟨decoded, hdecoded, hok⟩ := bind_eq_ok.mp hok
      obtain rfl := Except.ok.inj hok
      have hbounds : ∀ logged ∈ segments, logged.segmentId < bound := fun logged hlogged =>
        hnames _ (List.mem_map_of_mem hlogged)
      have happlied := h.applyLoggedDeletes hbounds
      dsimp only at hdecoded
      rw [← happlied.memtable] at hdecoded
      refine ⟨_, bind_eq_ok.mpr ⟨decoded, hdecoded, rfl⟩, ?_⟩
      dsimp only
      rw [happlied.memtable]
      exact happlied.withMemtable _

end Tracks

section Kept

variable {env : Env τ ν} {stored : SegmentId → Option (Finset Nat)} {w w' : Writer M}

theorem Kept.applyLoggedDeletes (h : w.Kept stored) (segments : List SegmentDeletes) :
    (applyLoggedDeletes w segments).Kept stored := by
  induction segments generalizing w with
  | nil => exact h
  | cons logged segments ih =>
      unfold LocalTables.applyLoggedDeletes
      rw [List.foldl_cons]
      refine ih ?_
      split
      · exact h
      · intro id hid
        simp only [Writer.mark, List.mem_insert_iff, not_or] at hid
        simp only [Writer.mark, Function.update_of_ne hid.1]
        exact h id hid.2

theorem Kept.replayRecord [DecidableEq τ] (h : w.Kept stored) {record : WalRecord τ ν}
    (hok : replayRecord env w record = .ok w') : w'.Kept stored := by
  cases record with
  | insert lsn baseSeqno batch =>
      obtain ⟨decoded, -, hok⟩ := bind_eq_ok.mp hok
      obtain rfl := Except.ok.inj hok
      exact h
  | delete lsn segments memtableRows =>
      obtain rfl := Except.ok.inj hok
      exact h.applyLoggedDeletes segments
  | update lsn segments memtableRows baseSeqno batch =>
      obtain ⟨decoded, -, hok⟩ := bind_eq_ok.mp hok
      obtain rfl := Except.ok.inj hok
      exact h.applyLoggedDeletes segments

end Kept

end Writer

end LocalTables
