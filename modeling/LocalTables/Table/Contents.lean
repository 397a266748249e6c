import LocalTables.Table.Isolation
import LocalTables.TableFile.Room

/-! Where segments stand and what they hold, across every operation of the table, schema changes that rewrite the data
included. Whatever is committed, a segment that is listed, or that a held snapshot lists, keeps its bytes. -/

namespace LocalTables

variable {τ ν : Type} {M : Media τ ν}

/-- What stands where the entry of a segment points. -/
structure SegmentEntry.Stores (file : M.File) (entry : SegmentEntry) (data : SegmentData ν) : Prop where
  read : M.read file entry.data (.segment entry.metaAt) = .ok (.segment data)
  rows : data.rows.length = entry.rowCount

/-- The live segments of a snapshot, each listed as the snapshot has it. -/
structure Snapshot.Captured (s : Snapshot τ ν) (m : Manifest) : Prop where
  nodup : (s.liveSegments.map SegmentEntry.segmentId).Nodup
  unchanged : ∀ entry ∈ s.liveSegments, entry ∈ m.segments

namespace Table

variable {env : Env τ ν} {t t' : Table M}

/-- The part of an open table's file that segments depend on, and the snapshots readers hold. -/
structure Housed (t : Table M) : Prop where
  roomy : Roomy t.writer.file
  synced : t.Synced
  numbered : t.writer.file.committed.manifest.Numbered
  pins : ∀ s ∈ t.pins, s.txnId ≤ t.writer.file.committed.metaPage.txnId ∧
    ∀ e ∈ s.manifest.refs, dataStart ≤ e.offset ∧ Protects t.writer.file.committed.manifest s.txnId e

theorem Isolated.housed (h : t.Isolated) : t.Housed := ⟨h.sound.settled.roomy, h.synced, h.numbered, h.pins⟩

/-- What holding the writer lock once does to the file, whatever it is held for. -/
inductive Shift (t t' : Table M) : Prop where
  | quiet (hfile : t'.writer.file = t.writer.file)
  | commit (p : Pending M) (f : TableFile M) (hdrafted : Drafted t.minActiveTxn t.writer.file p)
      (hnumbered : p.manifest.Numbered)
      (hcommit : TableFile.commit { t.writer.file with io := p.io } p.manifest = .ok f)
      (hfile : t'.writer.file = { f with schema := t'.writer.file.schema })

structure Shifts (t t' : Table M) : Prop where
  shift : t.Shift t'
  synced : t'.Synced
  pins : t'.pins = t.pins

/-- A snapshot somebody holds, or the one that is published. -/
def Shown (t : Table M) (s : Snapshot τ ν) : Prop := s = t.current ∨ s ∈ t.pins

theorem Housed.refs (h : t.Housed) {e : Extent} (he : e ∈ t.writer.file.committed.manifest.refs) :
    dataStart ≤ e.offset ∧ Protects t.writer.file.committed.manifest t.writer.file.committed.metaPage.txnId e := by
  have hpos := h.roomy.refsPos e he
  have hused := List.mem_append_right t.writer.file.manifests he
  exact ⟨(h.roomy.accounted.bounds (.inl hused) hpos).1, .of_accounted h.roomy.accounted hused hpos _⟩

/-- What a snapshot references is guarded while the next commit is prepared. -/
theorem Housed.guarded (h : t.Housed) {s : Snapshot τ ν} (hs : t.Shown s) {e : Extent} (he : e ∈ s.manifest.refs) :
    Guarded t.minActiveTxn t.writer.file.beginManifest e ∧ t.writer.file.nextSlot.page.Apart e := by
  have hmin := minActiveTxn_le h.synced
  have hsafe : ∀ {txn : Nat}, t.minActiveTxn ≤ txn + 1 → txn ≤ t.writer.file.committed.metaPage.txnId →
      dataStart ≤ e.offset ∧ Protects t.writer.file.committed.manifest txn e →
      Guarded t.minActiveTxn t.writer.file.beginManifest e ∧ t.writer.file.nextSlot.page.Apart e := by
    intro txn hle htxn ⟨hlow, hprotects⟩
    exact ⟨.inr ⟨hlow, txn, hle, Nat.lt_succ_of_le htxn, hprotects.congr rfl rfl⟩, TableFile.page_apart_of_dataStart _ hlow⟩
  rcases hs with rfl | hs
  · rw [h.synced.manifest] at he
    exact hsafe (Nat.le_succ_of_le hmin) le_rfl (h.refs he)
  · obtain ⟨htxn, hrefs⟩ := h.pins s hs
    exact hsafe (Nat.le_succ_of_le (minActiveTxn_le_pin hs)) htxn (hrefs e he)

theorem Housed.shifts (h : t.Housed) (hstep : t.Shifts t') : t'.Housed := by
  cases hstep.shift with
  | quiet hfile =>
      refine ⟨hfile ▸ h.roomy, hstep.synced, hfile ▸ h.numbered, fun s hs => ?_⟩
      rw [hstep.pins] at hs
      rw [hfile]
      exact h.pins s hs
  | commit p f hdrafted hnumbered hcommit hfile =>
      obtain ⟨e, -, -, -, -, -, -, -, htxn, -, -, -, -, hmanifest⟩ := TableFile.commit_manifest hdrafted.start hcommit
      have hroomy := hdrafted.commit hcommit
      refine ⟨?_, hstep.synced, ?_, fun s hs => ?_⟩
      · rw [hfile]
        exact ⟨hroomy.accounted, hroomy.inFile, hroomy.refsPos⟩
      · rw [hfile]
        dsimp only
        refine hnumbered.congr ?_ ?_
        · rw [hmanifest]
          exact Manifest.segments_free _
        · rw [hmanifest]
          exact Manifest.nextSegmentId_free _
      · rw [hstep.pins] at hs
        obtain ⟨hle, hrefs⟩ := h.pins s hs
        rw [hfile]
        dsimp only at htxn ⊢
        refine ⟨by omega, fun e he => ⟨(hrefs e he).1, hdrafted.commit_protects hcommit hle (hrefs e he).2⟩⟩

/-- A snapshot's references read the same once the lock is given back. -/
theorem Housed.reads (h : t.Housed) (hstep : t.Shifts t') {s : Snapshot τ ν} (hs : t.Shown s) {e : Extent}
    (he : e ∈ s.manifest.refs) (k : Kind) :
    M.read t'.writer.file.io.file e k = M.read t.writer.file.io.file e k := by
  obtain ⟨hguarded, hapart⟩ := h.guarded hs he
  cases hstep.shift with
  | quiet hfile => rw [hfile]
  | commit p f hdrafted hnumbered hcommit hfile =>
      rw [hfile]
      exact hdrafted.commit_reads h.roomy hcommit hguarded hapart k

theorem Housed.pin (h : t.Housed) : t.pin.Housed := by
  refine ⟨h.roomy, h.synced.congr rfl rfl, h.numbered, fun s hs => ?_⟩
  rcases List.mem_cons.mp hs with rfl | hs
  · refine ⟨h.synced.txn.le, fun e he => ?_⟩
    rw [h.synced.manifest] at he
    rw [h.synced.txn]
    exact h.refs he
  · exact h.pins s hs

theorem Housed.unpin (h : t.Housed) (index : Nat) : (t.unpin index).Housed :=
  ⟨h.roomy, h.synced.congr rfl rfl, h.numbered, fun s hs => h.pins s (List.mem_of_mem_eraseIdx hs)⟩

theorem Housed.shifts_of_acts (h : t.Housed) (hstep : t.Acts t') : t.Shifts t' := by
  refine ⟨?_, hstep.synced, hstep.pins⟩
  cases hstep.commits with
  | quiet hfile => exact .quiet hfile
  | edits p hedits hcommit =>
      exact .commit p _ ((Drafted.begin h.roomy).edits hedits) (hedits.numbered (h.numbered.congr rfl rfl)) hcommit rfl

section Rewrites

variable [DecidableEq τ] {before after : TableSchema τ} {s : Snapshot τ ν}

theorem convertSegments_appends {minActive : Nat} {sources : List SegmentEntry} {p p' : Pending M}
    (h : convertSegments env (writeSegment env after minActive) s sources before after p = .ok p') :
    p.manifest.segments <+: p'.manifest.segments :=
  convertSegments_ok (P := fun q : Pending M => p.manifest.segments <+: q.manifest.segments)
    (fun _ _ _ hs hstep => hs.trans (writeSegment_appends hstep)) List.prefix_rfl h

/-- A rewrite prepares its commit by edits too: it writes segments, and retires the ones it converted. -/
theorem convertSegments_retire {minActive : Nat} {p p' : Pending M} (hnumbered : p.manifest.Numbered)
    (hcaptured : s.Captured p.manifest)
    (h : convertSegments env (writeSegment env after minActive) s s.liveSegments before after p = .ok p') :
    Edits anyAllocation minActive p
      ⟨p'.io, p'.manifest.retire (s.liveSegments.map SegmentEntry.segmentId) s.liveSegments⟩ := by
  have hedits := convertSegments_edits h
  have hperm := (hedits.numbered hnumbered).perm_of_sources hcaptured.nodup fun entry hentry =>
    (convertSegments_appends h).subset (hcaptured.unchanged entry hentry)
  exact hedits.tail (.retire _ _ hperm)

theorem Housed.setSchemaLocked (h : t.Housed) {rewrite : Bool}
    (hcaptured : rewrite = true → s.Captured t.writer.file.committed.manifest)
    (hok : t.setSchemaLocked env before after rewrite s = .ok t') : t.Shifts t' := by
  obtain ⟨t₁, hchange, rfl⟩ := setSchemaLocked_ok hok
  obtain ⟨-, extent, file, hwrite, ⟨-, f, hcommit, rfl⟩ | ⟨rfl, pending, f, hpending, hcommit, rfl⟩⟩ := commitSchema_ok hchange
  · obtain ⟨-, hdrafted⟩ := Drafted.beginSchema t.minActiveTxn h.roomy hwrite
    exact ⟨.commit _ f hdrafted (h.numbered.congr rfl rfl) hcommit rfl, synced_publish _, rfl⟩
  · obtain ⟨-, hdrafted⟩ := Drafted.beginSchema t.minActiveTxn h.roomy hwrite
    have hnumbered : ({ t.writer.file.beginManifest with schema := extent } : Manifest).Numbered := h.numbered.congr rfl rfl
    obtain hcaptured := hcaptured rfl
    have hedits := convertSegments_retire hnumbered ⟨hcaptured.nodup, hcaptured.unchanged⟩ hpending
    rw [Writer.forgetAll_eq]
    exact ⟨.commit _ f (hdrafted.edits hedits) (hedits.numbered hnumbered) hcommit rfl, synced_publish _, rfl⟩

end Rewrites

/-- One holding of the writer lock, for anything. A rewriting schema change finds the segments it captured listed as it
captured them. -/
inductive Stirs [DecidableEq τ] (env : Env τ ν) : Table M → Table M → Prop where
  | locked {t t' : Table M} (h : Locked env t t') : Stirs env t t'
  | rewrite {t t' : Table M} (before after : TableSchema τ) (s : Snapshot τ ν)
      (hcaptured : s.Captured t.writer.file.committed.manifest)
      (h : t.setSchemaLocked env before after true s = .ok t') : Stirs env t t'

theorem Stirs.shifts [DecidableEq τ] (h : t.Housed) (hstep : Stirs env t t') :
    t.Shifts t' ∨ t' = t.pin ∨ ∃ index, t' = t.unpin index := by
  cases hstep with
  | locked hstep =>
      rcases hstep.acts h.synced h.numbered with hacts | ⟨before, after, s, hok⟩ | hpins
      · exact .inl (h.shifts_of_acts hacts)
      · exact .inl (h.setSchemaLocked (fun hrewrite => absurd hrewrite Bool.false_ne_true) hok)
      · exact .inr hpins
  | rewrite before after s hcaptured hok => exact .inl (h.setSchemaLocked (fun _ => hcaptured) hok)

theorem Stirs.housed [DecidableEq τ] (h : t.Housed) (hstep : Stirs env t t') : t'.Housed := by
  rcases hstep.shifts h with hshifts | rfl | ⟨index, rfl⟩
  · exact h.shifts hshifts
  · exact h.pin
  · exact h.unpin index

/-- A segment that a snapshot lists keeps its bytes over any locked step. -/
theorem Stirs.reads [DecidableEq τ] (h : t.Housed) (hstep : Stirs env t t') {s : Snapshot τ ν} (hs : t.Shown s)
    {e : Extent} (he : e ∈ s.manifest.refs) (k : Kind) :
    M.read t'.writer.file.io.file e k = M.read t.writer.file.io.file e k := by
  rcases hstep.shifts h with hshifts | rfl | ⟨index, rfl⟩
  · exact h.reads hshifts hs he k
  · rfl
  · rfl

theorem Housed.captured (h : t.Housed) : t.current.Captured t.writer.file.committed.manifest := by
  rw [← h.synced.manifest]
  have hnumbered := h.numbered
  rw [← h.synced.manifest] at hnumbered
  exact ⟨hnumbered.nodup.sublist (List.filter_sublist.map _), fun entry hentry => List.mem_of_mem_filter hentry⟩

/-- A schema change that nothing comes between: it flushes, takes a snapshot, and commits. -/
theorem Housed.setSchema [DecidableEq τ] (h : t.Housed) {schema : Schema τ} {rewrite : Bool}
    (hok : t.setSchema env schema rewrite = .ok t') : ∃ t₁ t₂, Stirs env t t₁ ∧ Stirs env t₁.pin t₂ ∧
      t' = t₂.unpin 0 ∧ t₁.pins = t.pins ∧ t₂.pins = t₁.pin.pins := by
  obtain ⟨⟨rows, t₁⟩, hflush, hok⟩ := bind_eq_ok.mp hok
  obtain ⟨after, -, hok⟩ := bind_eq_ok.mp hok
  obtain ⟨t₂, hset, hok⟩ := bind_eq_ok.mp hok
  have hshifts := h.shifts_of_acts (flushLocked_acts h.synced hflush)
  have hpinned := (h.shifts hshifts).pin
  have hset' := hpinned.setSchemaLocked (fun _ => hpinned.captured) hset
  refine ⟨t₁, t₂, .locked (.flush hflush), ?_, (Except.ok.inj hok).symm, hshifts.pins, hset'.pins⟩
  cases rewrite with
  | false => exact .locked (.setSchema _ _ _ hset)
  | true => exact .rewrite _ _ _ hpinned.captured hset

/-- A table reached by any locked steps. -/
inductive Stirred [DecidableEq τ] (env : Env τ ν) : Table M → Prop where
  | create {t : Table M} (schema : Schema τ) (fingerprint : Schema τ → Nat) (newTableUuid : Extent → List UInt8)
      (h : Table.create env M schema fingerprint newTableUuid none = .ok t) : Stirred env t
  | step {t t' : Table M} (hrun : Stirred env t) (hstep : Stirs env t t') : Stirred env t'

theorem Stirred.housed [DecidableEq τ] (hrun : Stirred env t) : t.Housed := by
  induction hrun with
  | create schema fingerprint newTableUuid h => exact (create_isolated h).housed
  | step _ hstep ih => exact hstep.housed ih

end Table

end LocalTables
