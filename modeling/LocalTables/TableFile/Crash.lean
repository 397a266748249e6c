import LocalTables.Io.Journal
import LocalTables.TableFile.Commit

/-! Commits and crashes in any order. A crash cuts a commit after some of its requests, in the middle
of a write or between two of them, and the file is opened again; a torn meta page fails its
checksum. Every such run keeps a file that opens to a commit the run completed, or to the one the
last crash interrupted. -/

namespace LocalTables

variable {τ ν : Type} {M : Media τ ν}

/-- The encoders take every meta page and every manifest, and the size of a manifest does not depend
on the length it records. -/
structure Media.Accepts (M : Media τ ν) : Prop where
  metaPage : ∀ page, ∃ n, M.size (.metaPage page) = .ok n
  manifest : ∀ manifest : Manifest, ∃ n, ∀ fileLen, M.size (.manifest { manifest with fileLen := fileLen }) = .ok n

namespace TableFile

variable {t t' : TableFile M} {m : Manifest} {left : M.File} {kind : TableKind}

theorem commit_succeeds (h : M.Accepts) (t : TableFile M) (m : Manifest) : ∃ t', t.commit m = .ok t' := by
  obtain ⟨n, hn⟩ := h.manifest (t.stamped m)
  have hself : M.size (.manifest (t.stamped m)) = .ok n := hn (t.stamped m).fileLen
  have hslot := le_alignUp isPowerOfTwo_bufferAlign (n + manifestSlack)
  have hgrew : ¬n > alignUp (n + manifestSlack) bufferAlign := by omega
  cases hwrite : writeManifest t.io (t.stamped m) with
  | error err =>
      simp only [writeManifest, hself, hn, bind, Except.bind, hgrew, if_false, FileIo.writeAt, pure,
        Except.pure] at hwrite
      cases hwrite
  | ok written =>
      obtain ⟨e, manifest, io⟩ := written
      obtain ⟨k, hk⟩ := h.metaPage (t.nextPage e manifest io.syncData.len)
      cases hcommit : t.commit m with
      | ok t' => exact ⟨t', rfl⟩
      | error err =>
          simp only [commit, hwrite, bind, Except.bind, writeMeta, FileIo.writeAt, hk, pure,
            Except.pure] at hcommit
          cases hcommit

theorem commit_of_next {c : Committed} (hc : t.nextCommitted m = some c) {n : Nat}
    (hsize : M.size (.metaPage c.metaPage) = .ok n) : ∃ t', t.commit m = .ok t' ∧ t'.committed = c := by
  cases hwrite : writeManifest t.io (t.stamped m) with
  | error err => rw [nextCommitted, hwrite] at hc; cases hc
  | ok written =>
      obtain ⟨e, manifest, io⟩ := written
      rw [nextCommitted_eq hwrite] at hc
      obtain rfl := Option.some.inj hc
      cases hcommit : t.commit m with
      | ok t' =>
          refine ⟨t', rfl, ?_⟩
          obtain ⟨e', manifest', io', hwrite', -, rfl⟩ := commit_ok hcommit
          obtain ⟨rfl, rfl, rfl⟩ : e = e' ∧ manifest = manifest' ∧ io = io' := by
            simpa using Except.ok.inj (hwrite.symm.trans hwrite')
          rfl
      | error err =>
          have hsize' : M.size (.metaPage (t.nextPage e manifest io.syncData.len)) = .ok n := hsize
          simp only [commit, hwrite, bind, Except.bind, writeMeta, FileIo.writeAt, hsize', pure,
            Except.pure] at hcommit
          cases hcommit

theorem len_commitCut (hstart : dataStart ≤ t.io.len) (hcut : M.Cut t.io.file (t.commitRequests m) left) :
    t.io.len ≤ M.len left := by
  have hend : (Extent.mk t.io.len 0).stop ≤ M.len left :=
    (spared_commitCut hcut le_rfl (page_apart_of_dataStart _ hstart)).1
  simpa using hend

/-- The slot a cut commit was writing: its old page, or the page of the new commit, whole. -/
theorem torn_page (h : Holds t.io.file kind t.header t.committed) (hslot : t.nextSlot = t.committed.slot.other)
    (hschema : t.SchemaWritten m) (hcut : M.Cut t.io.file (t.commitRequests m) left) (htorn : t.TornFails m left)
    {page : MetaPage} (hpage : readMeta left t.nextSlot = some page) :
    readMeta t.io.file t.nextSlot = some page ∨
      ∃ c t', t.nextCommitted m = some c ∧ c.metaPage = page ∧ Holds left kind t.header c ∧
        t.commit m = .ok t' ∧ t'.committed = c := by
  rcases (cut_commitRequests h hslot hschema hcut htorn).2 page hpage with hold | ⟨hlate, c, hc, hcpage, hholds⟩
  · exact .inl hold
  · cases hsize : M.size (.metaPage c.metaPage) with
    | ok n =>
        obtain ⟨t', hcommit, hcommitted⟩ := commit_of_next hc hsize
        exact .inr ⟨c, t', hc, hcpage, hholds, hcommit, hcommitted⟩
    | error err =>
        -- the page was never written
        refine .inl ?_
        have hnone : t.metaRequests m = [] := by
          simp only [metaRequests, hc, hsize]
        rw [hnone] at hlate
        have hleft : left = M.applyAll t.io.file (t.manifestRequests m) := by
          cases hlate with
          | stop => exact Media.applyAll_append _ _
        have hin := (MetaSlot.page_stop_le t.nextSlot).trans h.start
        rw [← hpage, hleft]
        exact (readMeta_congr (spared_manifestCut (Media.Cut.applyAll _ _) hin).2).symm

/-- A run of commits and crashes, starting from a created file. -/
inductive CommitRun (kind : TableKind) : TableFile M → Prop where
  | create {t : TableFile M} (schema : Schema τ) (fingerprint : Schema τ → Nat)
      (newTableUuid : Extent → List UInt8)
      (h : create M kind schema fingerprint newTableUuid none = .ok t) : CommitRun kind t
  | commit {t t' : TableFile M} (m : Manifest) (hrun : CommitRun kind t) (hschema : t.SchemaWritten m)
      (h : t.commit m = .ok t') : CommitRun kind t'
  | crash {t t' : TableFile M} (m : Manifest) (left : M.File) (hrun : CommitRun kind t)
      (hschema : t.SchemaWritten m) (hcut : M.Cut t.io.file (t.commitRequests m) left)
      (htorn : t.TornFails m left) (h : openFile left kind = .ok t') : CommitRun kind t'

/-- A cut commit leaves the commit in force or, after its first sync, the one it was making. -/
theorem recovers_cut (h : Recovers t.io.file kind t.header t.committed)
    (hslot : t.nextSlot = t.committed.slot.other) (hschema : t.SchemaWritten m)
    (hcut : M.Cut t.io.file (t.commitRequests m) left) (htorn : t.TornFails m left) :
    Recovers left kind t.header t.committed ∨
      M.Cut (M.applyAll t.io.file (t.manifestRequests m ++ [.sync])) (t.metaRequests m) left ∧
        ∃ c, t.nextCommitted m = some c ∧ Recovers left kind t.header c := by
  obtain ⟨hold, hnext⟩ := cut_commitRequests h.toHolds hslot hschema hcut htorn
  cases hpage : readMeta left t.nextSlot with
  | none => exact .inl ⟨hold, fun page hother => nomatch (hslot ▸ hpage).symm.trans hother⟩
  | some page =>
      rcases hnext page hpage with hsame | ⟨hlate, c, hc, rfl, hnew⟩
      · refine .inl ⟨hold, fun other hother => h.older other ?_⟩
        rw [← hslot] at hother ⊢
        rw [hsame, ← hpage, hother]
      · refine .inr ⟨hlate, c, hc, hnew, fun other hother => ?_⟩
        obtain ⟨htxn, hcslot⟩ := txnId_nextCommitted hc
        rw [hcslot, hslot, MetaSlot.other_other, hold.page] at hother
        rw [← Option.some.inj hother]
        omega

/-- Before its first sync a cut commit leaves the commit in force. -/
theorem recovers_cut_manifest (h : Recovers t.io.file kind t.header t.committed)
    (hslot : t.nextSlot = t.committed.slot.other)
    (hcut : M.Cut t.io.file (t.manifestRequests m) left) : Recovers left kind t.header t.committed := by
  refine ⟨h.toHolds.spared fun e _ hin => spared_manifestCut hcut hin, fun page hpage => h.older page ?_⟩
  rw [← hpage, ← hslot]
  exact (readMeta_congr (spared_manifestCut hcut ((MetaSlot.page_stop_le _).trans h.start)).2).symm

/-- Along a run the file opens to the commit the handle holds. -/
theorem CommitRun.recovers (hrun : CommitRun kind t) :
    Recovers t.io.file kind t.header t.committed ∧ t.nextSlot = t.committed.slot.other := by
  induction hrun with
  | create schema fingerprint newTableUuid h =>
      obtain ⟨seed, hfresh, -⟩ := create_fresh h
      exact ⟨hfresh.recovers, by rw [hfresh.slot, hfresh.nextSlot]; rfl⟩
  | commit m _ hschema h ih =>
      refine ⟨commit_recovers ih.1.toHolds ih.2 hschema h, ?_⟩
      obtain ⟨-, -, -, -, -, rfl⟩ := commit_ok h
      rfl
  | crash m left _ hschema hcut htorn h ih =>
      rcases recovers_cut ih.1 ih.2 hschema hcut htorn with hrec | ⟨-, c, -, hrec⟩
      · exact hrec.opened h
      · exact hrec.opened h

/-- Commit atomicity, repeated: from every state of a run the file opens to the commit in force; a
crash anywhere inside the next commit leaves a file that opens to that commit, or to the interrupted
one when its first sync had completed; and the reopened file is again a state of a run, so the next
commit has the same guarantee and, the encoders permitting, goes through. -/
theorem open_after_crash (hrun : CommitRun kind t) :
    (∃ t', openFile t.io.file kind = .ok t' ∧ t'.committed = t.committed) ∧
    ∀ m left, t.SchemaWritten m → M.Cut t.io.file (t.commitRequests m) left → t.TornFails m left →
      ∃ t', openFile left kind = .ok t' ∧ CommitRun kind t' ∧
        (t'.committed = t.committed ∨
          M.Cut (M.applyAll t.io.file (t.manifestRequests m ++ [.sync])) (t.metaRequests m) left ∧
            t.nextCommitted m = some t'.committed) ∧
        (M.Cut t.io.file (t.manifestRequests m) left → t'.committed = t.committed) ∧
        (M.Accepts → ∀ next, ∃ t'', t'.commit next = .ok t'') := by
  obtain ⟨hrec, hslot⟩ := hrun.recovers
  refine ⟨?_, fun m left hschema hcut htorn => ?_⟩
  · obtain ⟨t', hopen, -, -, hcommitted, -⟩ := hrec.openFile
    exact ⟨t', hopen, hcommitted⟩
  · have hearly : ∀ {t' : TableFile M}, openFile left kind = .ok t' →
        M.Cut t.io.file (t.manifestRequests m) left → t'.committed = t.committed := by
      intro t' hopen hcut
      obtain ⟨t'', hopen', -, -, hcommitted, -⟩ := (recovers_cut_manifest hrec hslot hcut).openFile
      obtain rfl := Except.ok.inj (hopen.symm.trans hopen')
      exact hcommitted
    rcases recovers_cut hrec hslot hschema hcut htorn with hold | ⟨hlate, c, hc, hnew⟩
    · obtain ⟨t', hopen, -, -, hcommitted, -⟩ := hold.openFile
      exact ⟨t', hopen, .crash m left hrun hschema hcut htorn hopen, .inl hcommitted, hearly hopen,
        fun haccepts => commit_succeeds haccepts t'⟩
    · obtain ⟨t', hopen, -, -, hcommitted, -⟩ := hnew.openFile
      exact ⟨t', hopen, .crash m left hrun hschema hcut htorn hopen, .inr ⟨hlate, by rw [hc, hcommitted]⟩,
        hearly hopen, fun haccepts => commit_succeeds haccepts t'⟩

end TableFile

theorem Journal.readMeta_torn (sizes : JournalSizes τ ν) (file : JournalFile τ ν) (slot : MetaSlot)
    (page : MetaPage) {count : Nat} (hpos : 0 < count) (hcount : count < metaPageSize) :
    readMeta (M := Journal sizes) ((Journal sizes).writePrefix file slot.offset (.metaPage page) count) slot =
      none := by
  have hover : Extent.overlaps ⟨slot.offset, count⟩ slot.page = true := by
    rw [Extent.overlaps, Bool.and_eq_true, decide_eq_true_iff, decide_eq_true_iff]
    simp only [Extent.stop, MetaSlot.page]
    omega
  have hwrite : (Journal sizes).writePrefix file slot.offset (.metaPage page) count =
      (⟨max file.len (slot.offset + count), ⟨⟨slot.offset, count⟩, none⟩ :: file.entries⟩ : JournalFile τ ν) := by
    change JournalFile.writePrefix sizes file _ _ _ = _
    have hpart : ¬count = sizes.size (.metaPage page) := hcount.ne
    rw [JournalFile.writePrefix, if_neg hpos.ne', if_neg hpart]
  have hread : ∀ file : JournalFile τ ν, file.entries.head? = some ⟨⟨slot.offset, count⟩, none⟩ →
      ∃ e, JournalFile.read file slot.page .metaPage = .error e := by
    rintro ⟨len, entries⟩ hhead
    obtain ⟨rest, rfl⟩ := List.head?_eq_some_iff.mp hhead
    rw [JournalFile.read, JournalFile.lookup, List.find?_cons_of_pos (by exact hover)]
    split
    · exact ⟨_, rfl⟩
    · exact ⟨_, rfl⟩
  obtain ⟨e, he⟩ := hread ⟨max file.len (slot.offset + count), ⟨⟨slot.offset, count⟩, none⟩ :: file.entries⟩ rfl
  have herr : (Journal sizes).read ((Journal sizes).writePrefix file slot.offset (.metaPage page) count)
      slot.page .metaPage = .error e := hwrite ▸ he
  simp only [readMeta, herr]

theorem Journal.accepts (sizes : JournalSizes τ ν) : (Journal sizes).Accepts where
  metaPage _ := ⟨_, rfl⟩
  manifest manifest := ⟨sizes.size (.manifest manifest), fun _ => rfl⟩

/-- One column of plain values. -/
def plainSchema : Schema Unit := ⟨[⟨"v", (), false⟩], []⟩

/-- A created table whose next commit is cut 100 bytes into its meta page. -/
theorem open_after_torn_page : ∃ (t : TableFile (Journal plainSizes)) (left : JournalFile Unit Nat),
    TableFile.CommitRun .columnar t ∧ readMeta (M := Journal plainSizes) left t.nextSlot = none ∧
      ∃ t', TableFile.openFile (M := Journal plainSizes) left .columnar = .ok t' ∧
        (t'.committed = t.committed ∨ t.nextCommitted t.committed.manifest = some t'.committed) := by
  obtain ⟨t, ht⟩ : ∃ t, TableFile.create (Journal plainSizes) .columnar plainSchema (fun _ => 0)
      (fun _ => []) none = .ok t := ⟨_, rfl⟩
  have hrun : TableFile.CommitRun .columnar t := .create _ _ _ ht
  have hschema : t.SchemaWritten t.committed.manifest :=
    ⟨hrun.recovers.1.schema, hrun.recovers.1.schemaAt⟩
  obtain ⟨t₁, hcommit⟩ := TableFile.commit_succeeds (Journal.accepts plainSizes) t t.committed.manifest
  obtain ⟨e, manifest, io, hwrite, hsize, -⟩ := TableFile.commit_ok hcommit
  let page := t.nextPage e manifest io.len
  let left := (Journal plainSizes).writePrefix io.file t.nextSlot.offset (.metaPage page) 100
  have htorn : readMeta (M := Journal plainSizes) left t.nextSlot = none :=
    Journal.readMeta_torn plainSizes io.file t.nextSlot page (by decide) (by decide)
  have hcut : (Journal plainSizes).Cut t.io.file (t.commitRequests t.committed.manifest) left := by
    refine Media.Cut.after (.step _ _ _ _ ?_)
    rw [TableFile.applyAll_manifestRequests hwrite, TableFile.metaRequests, TableFile.nextCommitted_eq hwrite]
    simp only [hsize]
    exact .torn _ _ _ _ _ _ hsize (by decide)
  have hnone : ∀ page, readMeta (M := Journal plainSizes) left t.nextSlot ≠ some page := by
    intro page hpage
    cases htorn.symm.trans hpage
  obtain ⟨t', hopen, -, hpair, -⟩ := (TableFile.open_after_crash hrun).2 t.committed.manifest left hschema hcut
    fun page hpage => absurd hpage (hnone page)
  exact ⟨t, left, hrun, htorn, t', hopen, hpair.imp id And.right⟩

end LocalTables
