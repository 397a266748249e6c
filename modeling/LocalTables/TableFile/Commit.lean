import LocalTables.TableFile.Basic

/-! What a commit does to the file and what opening finds afterwards. `Recovers file c` says that
opening `file` yields the commit `c`; requests that spare what `c` needs keep it, a completed commit
moves it to the new commit, and a commit cut short leaves it at the old commit or, once the meta
page is whole, at the new one. -/

namespace LocalTables

variable {τ ν : Type} {M : Media τ ν}

/-- Everything `writeManifest` does. -/
theorem writeManifest_ok {io io' : FileIo M} {m m' : Manifest} {e : Extent}
    (h : writeManifest io m = .ok (e, m', io')) :
    ∃ n, M.size (.manifest m') = .ok n ∧ n ≤ e.len ∧ m' = { m with fileLen := e.stop } ∧
      io.len ≤ e.offset ∧ m.fileLen ≤ e.offset ∧ 0 < e.len ∧
      FileIo.Issued io (io.growth e.stop ++ [.write e.offset (.manifest m')]) io' := by
  obtain ⟨probe, -, h⟩ := bind_eq_ok.mp h
  obtain ⟨n, hn, h⟩ := bind_eq_ok.mp h
  obtain ⟨hgrew, h⟩ := ite_throw_eq_ok.mp h
  obtain ⟨io₁, hwrite, h⟩ := bind_eq_ok.mp h
  obtain ⟨-, -, rfl⟩ := FileIo.writeAt_ok hwrite
  have heq := Except.ok.inj h
  simp only [Prod.mk.injEq] at heq
  obtain ⟨rfl, rfl, rfl⟩ := heq
  have hstart := le_alignUp isPowerOfTwo_bufferAlign (max m.fileLen io.len)
  have hslot := le_alignUp isPowerOfTwo_bufferAlign (probe + manifestSlack)
  have hpos : 0 < manifestSlack := by decide
  exact ⟨n, hn, not_lt.mp hgrew, rfl, by dsimp only; omega, by dsimp only; omega,
    by dsimp only; omega, (FileIo.issued_ensureLen _ _).trans (FileIo.issued_request _ _)⟩

/-- The slot is in the file and holds the manifest. -/
theorem writeManifest_read {io io' : FileIo M} {m m' : Manifest} {e : Extent}
    (h : writeManifest io m = .ok (e, m', io')) :
    io'.len = e.stop ∧ M.read io'.file e .manifest = .ok (.manifest m') := by
  obtain ⟨n, hsize, hn, -, hio, -, -, -, hfile⟩ := writeManifest_ok h
  have hgrown : M.applyAll io.file (io.growth e.stop) = (io.ensureLen e.stop).file :=
    ((FileIo.issued_ensureLen io e.stop).2).symm
  have hlen : M.len (io.ensureLen e.stop).file = max io.len e.stop := FileIo.len_ensureLen io e.stop
  have hstop : e.stop = e.offset + e.len := rfl
  rw [Media.applyAll_append, hgrown, Media.applyAll_cons] at hfile
  rw [FileIo.len, hfile]
  refine ⟨?_, ?_⟩
  · change M.len (M.write _ _ _) = _
    rw [Media.len_write hsize, hlen]
    omega
  · change M.read (M.write _ _ _) _ _ = _
    rw [Media.write_eq hsize]
    exact M.read_write_manifest _ e m' n hsize hn (by rw [hlen]; omega)

theorem spares_writeManifest {io io' : FileIo M} {m m' : Manifest} {e extent : Extent}
    (h : writeManifest io m = .ok (e, m', io')) (hin : extent.stop ≤ io.len) :
    ∀ op ∈ io.growth e.stop ++ [.write e.offset (.manifest m')], M.Spares extent op := by
  obtain ⟨n, hsize, -, -, hio, -⟩ := writeManifest_ok h
  intro op hop
  rcases List.mem_append.mp hop with hop | hop
  · exact FileIo.spares_growth hin op hop
  · rw [List.mem_singleton] at hop
    subst hop
    exact ⟨n, hsize, .inr (hin.trans hio)⟩

/-- A write into one meta slot spares everything outside its page. -/
theorem spares_meta {slot : MetaSlot} {page : MetaPage} {n : Nat} (hsize : M.size (.metaPage page) = .ok n)
    {e : Extent} (h : slot.page.Apart e) : M.Spares e (.write slot.offset (.metaPage page)) := by
  refine ⟨n, hsize, ?_⟩
  rw [M.size_metaPage page n hsize]
  exact h

/-- The file holds this commit whole: the header, the slot's page, its manifest and its schema read
back. -/
structure Holds (file : M.File) (kind : TableKind) (header : FileHeader) (c : Committed) : Prop where
  header_read : readHeader file = .ok header
  valid : header.validate kind = .ok ()
  page : readMeta file c.slot = some c.metaPage
  manifest : readManifest file c.metaPage = .ok c.manifest
  txn : c.manifest.txnId = c.metaPage.txnId
  schema : ∃ schema, readSchema file (schemaExtent header c.manifest) = .ok schema
  start : dataStart ≤ M.len file
  manifestAt : dataStart ≤ c.metaPage.manifest.offset ∧ c.metaPage.manifest.stop ≤ M.len file
  schemaAt : dataStart ≤ (schemaExtent header c.manifest).offset ∧
    (schemaExtent header c.manifest).stop ≤ M.len file

/-- Opening the file yields this commit: the file holds it, and the other slot is unreadable or
older. -/
structure Recovers (file : M.File) (kind : TableKind) (header : FileHeader) (c : Committed) : Prop extends
    Holds file kind header c where
  older : ∀ page, readMeta file c.slot.other = some page → page.txnId < c.metaPage.txnId

section Congruence

variable {file left : M.File}

theorem readHeader_congr (h : ∀ kind, M.read left headerExtent kind = M.read file headerExtent kind) :
    readHeader left = readHeader file := by
  rw [readHeader, readHeader, h]

theorem readMeta_congr {slot : MetaSlot}
    (h : ∀ kind, M.read left slot.page kind = M.read file slot.page kind) :
    readMeta left slot = readMeta file slot := by
  rw [readMeta, readMeta, h]

theorem readManifest_congr {page : MetaPage}
    (h : ∀ kind, M.read left page.manifest kind = M.read file page.manifest kind) :
    readManifest left page = readManifest file page := by
  rw [readManifest, readManifest, h]

theorem readSchema_congr {e : Extent} (h : ∀ kind, M.read left e kind = M.read file e kind) :
    readSchema left e = readSchema file e := by
  rw [readSchema, readSchema, h]

theorem readHeader_of_read {header : FileHeader}
    (h : M.read file headerExtent .header = .ok (.header header)) : readHeader file = .ok header := by
  rw [readHeader, h]
  rfl

theorem readMeta_of_read {slot : MetaSlot} {page : MetaPage}
    (h : M.read file slot.page .metaPage = .ok (.metaPage page)) : readMeta file slot = some page := by
  rw [readMeta, h]

theorem readManifest_of_read {page : MetaPage} {manifest : Manifest}
    (h : M.read file page.manifest .manifest = .ok (.manifest manifest)) :
    readManifest file page = .ok manifest := by
  rw [readManifest, h]
  rfl

theorem readSchema_of_read {e : Extent} {schema : Schema τ}
    (h : M.read file e .schema = .ok (.schema schema)) : readSchema file e = .ok schema := by
  rw [readSchema, h]
  rfl

end Congruence

/-- With the newest slot readable, `readCommitted` returns it and the extent of the other. -/
theorem readCommitted_eq {file : M.File} {slot : MetaSlot} {page : MetaPage} {manifest : Manifest}
    (hpage : readMeta file slot = some page) (hmanifest : readManifest file page = .ok manifest)
    (htxn : manifest.txnId = page.txnId)
    (holder : ∀ other, readMeta file slot.other = some other → other.txnId < page.txnId) :
    readCommitted file = .ok (⟨page, slot, manifest⟩,
      ((readMeta file slot.other).map (·.manifest)).getD Extent.empty) := by
  cases hother : readMeta file slot.other with
  | none =>
      have hslots : readSlots file = [(slot, page)] := by
        cases slot <;> simp only [MetaSlot.other] at hother <;> simp [readSlots, hpage, hother]
      simp [readCommitted, hslots, selectCommitted, hmanifest, htxn, loserManifest]
  | some other =>
      have hlt := holder other hother
      have hslots : readSlots file = [(slot, page), (slot.other, other)] := by
        cases slot <;> simp only [MetaSlot.other] at hother <;>
          simp [readSlots, hpage, hother, MetaSlot.other, Nat.le_of_lt hlt, Nat.not_le.mpr hlt]
      simp [readCommitted, hslots, selectCommitted, hmanifest, htxn, loserManifest]

/-- The extents opening the commit reads. -/
def Committed.needs (header : FileHeader) (c : Committed) : List Extent :=
  [headerExtent, c.slot.page, c.metaPage.manifest, schemaExtent header c.manifest]

namespace Holds

variable {file left : M.File} {kind : TableKind} {header : FileHeader} {c : Committed}

theorem needs_in (h : Holds file kind header c) : ∀ e ∈ c.needs header, e.stop ≤ M.len file := by
  intro e he
  have hstart := h.start
  simp only [Committed.needs, List.mem_cons, List.not_mem_nil, or_false] at he
  rcases he with rfl | rfl | rfl | rfl
  · exact le_trans (by decide) hstart
  · exact c.slot.page_stop_le.trans hstart
  · exact h.manifestAt.2
  · exact h.schemaAt.2

theorem congr (h : Holds file kind header c)
    (hread : ∀ e ∈ c.needs header, e.stop ≤ M.len left ∧ ∀ k, M.read left e k = M.read file e k)
    (hstart : dataStart ≤ M.len left) : Holds left kind header c where
  header_read := (readHeader_congr (hread headerExtent (by simp [Committed.needs])).2).trans h.header_read
  valid := h.valid
  page := (readMeta_congr (hread c.slot.page (by simp [Committed.needs])).2).trans h.page
  manifest := (readManifest_congr (hread c.metaPage.manifest (by simp [Committed.needs])).2).trans h.manifest
  txn := h.txn
  schema := by
    obtain ⟨schema, hschema⟩ := h.schema
    exact ⟨schema, (readSchema_congr (hread _ (by simp [Committed.needs])).2).trans hschema⟩
  start := hstart
  manifestAt := ⟨h.manifestAt.1, (hread c.metaPage.manifest (by simp [Committed.needs])).1⟩
  schemaAt := ⟨h.schemaAt.1, (hread (schemaExtent header c.manifest) (by simp [Committed.needs])).1⟩

/-- A file in which every extent of the old one reads as before holds what the old one held. -/
theorem spared (h : Holds file kind header c)
    (hread : ∀ e : Extent, e ∈ c.needs header ∨ e = ⟨dataStart, 0⟩ → e.stop ≤ M.len file →
      e.stop ≤ M.len left ∧ ∀ k, M.read left e k = M.read file e k) : Holds left kind header c := by
  refine h.congr (fun e he => hread e (.inl he) (h.needs_in e he)) ?_
  have := (hread ⟨dataStart, 0⟩ (.inr rfl) h.start).1
  simpa using this

end Holds

namespace Recovers

variable {file left : M.File} {kind : TableKind} {header : FileHeader} {c : Committed}

/-- Opening finds the commit, and learns the other slot's manifest from whatever is there. -/
theorem openFile (h : Recovers file kind header c) :
    ∃ t : TableFile M, TableFile.openFile file kind = .ok t ∧ t.io = ⟨file, []⟩ ∧ t.header = header ∧
      t.committed = c ∧ t.nextSlot = c.slot.other ∧
      t.nextSlotManifest = ((readMeta file c.slot.other).map (·.manifest)).getD Extent.empty ∧
      readSchema file (schemaExtent header c.manifest) = .ok t.schema := by
  obtain ⟨schema, hschema⟩ := h.schema
  refine ⟨⟨⟨file, []⟩, schema, header, c.slot.other,
    ((readMeta file c.slot.other).map (·.manifest)).getD Extent.empty, c⟩, ?_, rfl, rfl, rfl, rfl, rfl, hschema⟩
  have hcommitted := readCommitted_eq h.page h.manifest h.txn h.older
  rw [TableFile.openFile, h.header_read]
  simp only [bind, Except.bind, h.valid, hcommitted, hschema, pure, Except.pure]

/-- The opened handle holds the commit and is about to overwrite the other slot. -/
theorem opened (h : Recovers file kind header c) {t : TableFile M}
    (hopen : TableFile.openFile file kind = .ok t) :
    Recovers t.io.file kind t.header t.committed ∧ t.nextSlot = t.committed.slot.other := by
  obtain ⟨t', hopen', hio, hheader, hcommitted, hnext, -⟩ := h.openFile
  obtain rfl := Except.ok.inj (hopen.symm.trans hopen')
  rw [hio, hheader, hcommitted, hnext]
  exact ⟨h, rfl⟩

end Recovers

@[simp] theorem Manifest.schema_free (m : Manifest) (e : Extent) : (m.free e).schema = m.schema := by
  unfold Manifest.free; split <;> rfl

@[simp] theorem Manifest.txnId_free (m : Manifest) (e : Extent) : (m.free e).txnId = m.txnId := by
  unfold Manifest.free; split <;> rfl

namespace TableFile

variable (t : TableFile M) (m : Manifest)

/-- The requests `commit` makes before its first sync. -/
def manifestRequests : List (IoOp τ ν) :=
  match writeManifest t.io (t.stamped m) with
  | .ok (_, _, io) => io.log.drop t.io.log.length
  | .error _ => []

/-- The commit the manifest on disk is about to become. -/
def nextCommitted : Option Committed :=
  match writeManifest t.io (t.stamped m) with
  | .ok (extent, manifest, io) => some ⟨t.nextPage extent manifest io.syncData.len, t.nextSlot, manifest⟩
  | .error _ => none

/-- The requests `commit` makes after its first sync. -/
def metaRequests : List (IoOp τ ν) :=
  match t.nextCommitted m with
  | none => []
  | some c =>
      match M.size (.metaPage c.metaPage) with
      | .ok _ => [.write t.nextSlot.offset (.metaPage c.metaPage), .sync]
      | .error _ => []

/-- All requests of a commit, in order. -/
def commitRequests : List (IoOp τ ν) := t.manifestRequests m ++ .sync :: t.metaRequests m

/-- The caller has written the schema blob the manifest names. -/
def SchemaWritten : Prop :=
  (∃ schema, readSchema t.io.file (schemaExtent t.header m) = .ok schema) ∧
    dataStart ≤ (schemaExtent t.header m).offset ∧ (schemaExtent t.header m).stop ≤ t.io.len

/-- A torn frame fails its checksum: the slot a cut commit was writing holds its old page, the whole
new page, or nothing readable. -/
def TornFails (left : M.File) : Prop :=
  ∀ page, readMeta left t.nextSlot = some page →
    readMeta t.io.file t.nextSlot = some page ∨ ∃ c, t.nextCommitted m = some c ∧ c.metaPage = page

variable {t m} {t' : TableFile M} {left : M.File} {kind : TableKind}

/-- Everything a commit that returns has done. -/
theorem commit_ok (h : t.commit m = .ok t') :
    ∃ e manifest io, writeManifest t.io (t.stamped m) = .ok (e, manifest, io) ∧
      M.size (.metaPage (t.nextPage e manifest io.len)) = .ok metaPageSize ∧
      t' = { t with
        io := ((io.syncData).request (.write t.nextSlot.offset
          (.metaPage (t.nextPage e manifest io.len)))).syncData
        nextSlotManifest := t.committed.metaPage.manifest
        committed := ⟨t.nextPage e manifest io.len, t.nextSlot, manifest⟩
        nextSlot := t.nextSlot.other } := by
  obtain ⟨⟨e, manifest, io⟩, hwrite, h⟩ := bind_eq_ok.mp h
  obtain ⟨io₁, hmeta, h⟩ := bind_eq_ok.mp h
  obtain ⟨n, hn, rfl⟩ := FileIo.writeAt_ok hmeta
  refine ⟨e, manifest, io, hwrite, ?_, (Except.ok.inj h).symm⟩
  have := M.size_metaPage _ _ hn
  rw [this] at hn
  exact hn

theorem txnId_stamped {e : Extent} {manifest : Manifest} {io : FileIo M}
    (hwrite : writeManifest t.io (t.stamped m) = .ok (e, manifest, io)) :
    manifest.txnId = t.committed.metaPage.txnId + 1 := by
  obtain ⟨-, -, -, rfl, -⟩ := writeManifest_ok hwrite
  simp only [stamped, Manifest.txnId_free]

/-- Where a commit puts its manifest, and the handle it leaves. -/
theorem commit_manifest (hstart : dataStart ≤ t.io.len) (hcommit : t.commit m = .ok t') :
    ∃ e : Extent, 0 < e.len ∧ t.io.len ≤ e.offset ∧ m.fileLen ≤ e.offset ∧ t'.io.len = e.stop ∧
      t'.header = t.header ∧ t'.schema = t.schema ∧ t'.committed.metaPage.manifest = e ∧
      t'.committed.metaPage.txnId = t.committed.metaPage.txnId + 1 ∧
      t'.committed.metaPage.checkpointLsn = m.checkpointLsn ∧
      t'.committed.slot = t.nextSlot ∧ t'.nextSlot = t.nextSlot.other ∧
      t'.nextSlotManifest = t.committed.metaPage.manifest ∧
      t'.committed.manifest = { t.stamped m with fileLen := e.stop } := by
  obtain ⟨e, manifest, io, hwrite, hsize, rfl⟩ := commit_ok hcommit
  obtain ⟨-, -, -, rfl, hio, hlen, hpos, -⟩ := writeManifest_ok hwrite
  obtain ⟨hend, -⟩ := writeManifest_read hwrite
  have hfile : (t.stamped m).fileLen = m.fileLen := by
    unfold stamped Manifest.free
    split <;> rfl
  have hcheckpoint : (t.stamped m).checkpointLsn = m.checkpointLsn := by
    unfold stamped Manifest.free
    split <;> rfl
  have htxn := txnId_stamped hwrite
  refine ⟨e, hpos, hio, hfile ▸ hlen, ?_, rfl, rfl, rfl, htxn, hcheckpoint, rfl, rfl, rfl, rfl⟩
  have hslot : t.nextSlot.offset + metaPageSize ≤ dataStart := MetaSlot.page_stop_le t.nextSlot
  have hstop : e.stop = e.offset + e.len := rfl
  refine (FileIo.len_write io.syncData hsize).trans ?_
  change max io.len _ = _
  omega

section Requests

variable {e : Extent} {manifest : Manifest} {io : FileIo M}
  (hwrite : writeManifest t.io (t.stamped m) = .ok (e, manifest, io))
include hwrite

theorem manifestRequests_eq :
    t.manifestRequests m = t.io.growth e.stop ++ [.write e.offset (.manifest manifest)] := by
  obtain ⟨-, -, -, -, -, -, -, hlog, -⟩ := writeManifest_ok hwrite
  simp only [manifestRequests, hwrite, hlog, List.drop_left]

theorem applyAll_manifestRequests : M.applyAll t.io.file (t.manifestRequests m) = io.file := by
  obtain ⟨-, -, -, -, -, -, -, -, hfile⟩ := writeManifest_ok hwrite
  rw [manifestRequests_eq hwrite, hfile]

theorem nextCommitted_eq : t.nextCommitted m = some ⟨t.nextPage e manifest io.len, t.nextSlot, manifest⟩ := by
  simp only [nextCommitted, hwrite]
  rfl

theorem spares_manifestRequests {extent : Extent} (hin : extent.stop ≤ t.io.len) :
    ∀ op ∈ t.manifestRequests m, M.Spares extent op := by
  rw [manifestRequests_eq hwrite]
  exact spares_writeManifest hwrite hin

omit hwrite in
theorem spares_metaRequests {extent : Extent} (hapart : t.nextSlot.page.Apart extent) :
    ∀ op ∈ t.metaRequests m, M.Spares extent op := by
  intro op hop
  unfold metaRequests at hop
  split at hop
  · cases hop
  · split at hop
    · next n hsize =>
      simp only [List.mem_cons, List.not_mem_nil, or_false] at hop
      rcases hop with rfl | rfl
      · exact spares_meta hsize hapart
      · trivial
    · cases hop

end Requests

theorem manifestRequests_of_error {err : Error} (h : writeManifest t.io (t.stamped m) = .error err) :
    t.manifestRequests m = [] ∧ t.metaRequests m = [] := by
  simp only [manifestRequests, metaRequests, nextCommitted, h, and_self]

theorem issued_commit (h : t.commit m = .ok t') : FileIo.Issued t.io (t.commitRequests m) t'.io := by
  obtain ⟨e, manifest, io, hwrite, hsize, rfl⟩ := commit_ok h
  obtain ⟨-, -, -, -, -, -, -, hissued⟩ := writeManifest_ok hwrite
  rw [commitRequests, manifestRequests_eq hwrite, metaRequests, nextCommitted_eq hwrite]
  simp only [hsize]
  exact hissued.trans ((FileIo.issued_request _ _).trans
    ((FileIo.issued_request _ _).trans (FileIo.issued_request _ _)))

theorem schemaExtent_stamped (header : FileHeader) {e : Extent} {manifest : Manifest} {io : FileIo M}
    (hwrite : writeManifest t.io (t.stamped m) = .ok (e, manifest, io)) :
    schemaExtent header manifest = schemaExtent header m := by
  obtain ⟨-, -, -, rfl, -⟩ := writeManifest_ok hwrite
  simp only [schemaExtent, stamped, Manifest.schema_free]

theorem page_apart_of_dataStart (slot : MetaSlot) {e : Extent} (h : dataStart ≤ e.offset) :
    slot.page.Apart e := .inl (slot.page_stop_le.trans h)

/-- What the slot being written does not share with the commit in force. -/
theorem nextSlot_apart (h : Holds t.io.file kind t.header t.committed)
    (hslot : t.nextSlot = t.committed.slot.other) :
    ∀ e : Extent, e ∈ t.committed.needs t.header ∨ e = ⟨dataStart, 0⟩ → t.nextSlot.page.Apart e := by
  rintro e (he | rfl)
  · simp only [Committed.needs, List.mem_cons, List.not_mem_nil, or_false] at he
    rcases he with rfl | rfl | rfl | rfl
    · exact (headerExtent_apart_page t.nextSlot).symm
    · rw [hslot]
      exact (t.committed.slot.page_apart_other).symm
    · exact page_apart_of_dataStart _ h.manifestAt.1
    · exact page_apart_of_dataStart _ h.schemaAt.1
  · exact page_apart_of_dataStart _ le_rfl

/-- Before the first sync nothing the file held has changed. -/
theorem spared_manifestCut (hcut : M.Cut t.io.file (t.manifestRequests m) left) {extent : Extent}
    (hin : extent.stop ≤ t.io.len) :
    extent.stop ≤ M.len left ∧ ∀ k, M.read left extent k = M.read t.io.file extent k := by
  cases hwrite : writeManifest t.io (t.stamped m) with
  | error err =>
      rw [(manifestRequests_of_error hwrite).1] at hcut
      exact hcut.spared (by simp) hin
  | ok written =>
      obtain ⟨e, manifest, io⟩ := written
      exact hcut.spared (spares_manifestRequests hwrite hin) hin

/-- Once the new meta page is whole, the file holds the new commit. -/
theorem holds_next (h : Holds t.io.file kind t.header t.committed) (hschema : t.SchemaWritten m)
    {e : Extent} {manifest : Manifest} {io : FileIo M}
    (hwrite : writeManifest t.io (t.stamped m) = .ok (e, manifest, io))
    (hleft : ∀ extent : Extent, extent.stop ≤ io.len → t.nextSlot.page.Apart extent →
      extent.stop ≤ M.len left ∧ ∀ k, M.read left extent k = M.read io.file extent k)
    (hpage : readMeta left t.nextSlot = some (t.nextPage e manifest io.len)) :
    Holds left kind t.header ⟨t.nextPage e manifest io.len, t.nextSlot, manifest⟩ := by
  obtain ⟨n, -, -, -, hio, -, -, -, hfile⟩ := writeManifest_ok hwrite
  obtain ⟨hlen, hmanifest⟩ := writeManifest_read hwrite
  have hstop : e.stop = e.offset + e.len := rfl
  have hstart : dataStart ≤ t.io.len := h.start
  have hspared : ∀ extent : Extent, extent.stop ≤ t.io.len → t.nextSlot.page.Apart extent →
      extent.stop ≤ M.len left ∧ ∀ k, M.read left extent k = M.read t.io.file extent k := by
    intro extent hin hapart
    obtain ⟨hin', hread⟩ := Media.applyAll_spared (spares_writeManifest hwrite hin) hin
    rw [← hfile] at hin' hread
    obtain ⟨hin'', hread'⟩ := hleft extent hin' hapart
    exact ⟨hin'', fun k => (hread' k).trans (hread k)⟩
  have heAt : dataStart ≤ e.offset := hstart.trans hio
  obtain ⟨⟨schema, hread⟩, hlow, hin⟩ := hschema
  have hext := schemaExtent_stamped (t := t) (m := m) t.header hwrite
  refine {
    header_read := ?_
    valid := h.valid
    page := hpage
    manifest := ?_
    txn := rfl
    schema := ⟨schema, ?_⟩
    start := ?_
    manifestAt := ⟨heAt, (hleft e hlen.ge (page_apart_of_dataStart _ heAt)).1⟩
    schemaAt := ?_ }
  · have := hspared headerExtent (h.needs_in _ (by simp [Committed.needs])) (headerExtent_apart_page _).symm
    exact (readHeader_congr this.2).trans h.header_read
  · exact readManifest_of_read (((hleft e hlen.ge (page_apart_of_dataStart _ heAt)).2 _).trans hmanifest)
  · rw [hext]
    exact (readSchema_congr (hspared _ hin (page_apart_of_dataStart _ hlow)).2).trans hread
  · have := (hspared ⟨dataStart, 0⟩ hstart (page_apart_of_dataStart _ le_rfl)).1
    simpa using this
  · rw [hext]
    exact ⟨hlow, (hspared _ hin (page_apart_of_dataStart _ hlow)).1⟩

/-- However a commit is cut, an extent the file held reads as before unless it lies in the slot being
written. -/
theorem spared_commitCut (hcut : M.Cut t.io.file (t.commitRequests m) left) {extent : Extent}
    (hin : extent.stop ≤ t.io.len) (hapart : t.nextSlot.page.Apart extent) :
    extent.stop ≤ M.len left ∧ ∀ k, M.read left extent k = M.read t.io.file extent k := by
  refine hcut.spared (fun op hop => ?_) hin
  rw [commitRequests, List.mem_append, List.mem_cons] at hop
  rcases hop with hop | rfl | hop
  · cases hwrite : writeManifest t.io (t.stamped m) with
    | error err =>
        rw [(manifestRequests_of_error hwrite).1] at hop
        cases hop
    | ok written =>
        obtain ⟨e, manifest, io⟩ := written
        exact spares_manifestRequests hwrite hin op hop
  · trivial
  · exact spares_metaRequests hapart op hop

/-- However a commit is cut, the file still holds the commit in force, and the slot being written is
unreadable, as it was, or holds the new commit whole. -/
theorem cut_commitRequests (h : Holds t.io.file kind t.header t.committed)
    (hslot : t.nextSlot = t.committed.slot.other) (hschema : t.SchemaWritten m)
    (hcut : M.Cut t.io.file (t.commitRequests m) left) (htorn : t.TornFails m left) :
    Holds left kind t.header t.committed ∧
      ∀ page, readMeta left t.nextSlot = some page →
        readMeta t.io.file t.nextSlot = some page ∨
        M.Cut (M.applyAll t.io.file (t.manifestRequests m ++ [.sync])) (t.metaRequests m) left ∧
          ∃ c, t.nextCommitted m = some c ∧ c.metaPage = page ∧ Holds left kind t.header c := by
  refine ⟨h.spared fun e he hin => spared_commitCut hcut hin (nextSlot_apart h hslot e he), ?_⟩
  intro page hpage
  rw [commitRequests, ← List.singleton_append, ← List.append_assoc] at hcut
  rcases hcut.append with hcut | hcut
  · -- the slot itself has not been touched yet
    refine .inl ?_
    rw [← hpage]
    have hin : t.nextSlot.page.stop ≤ t.io.len := (MetaSlot.page_stop_le _).trans h.start
    rcases hcut.append with hcut | hcut
    · exact (readMeta_congr (spared_manifestCut hcut hin).2).symm
    · refine (readMeta_congr (spared_manifestCut (m := m) ?_ hin).2).symm
      cases hcut with
      | stop => exact Media.Cut.applyAll _ _
      | step _ _ _ _ hcut => cases hcut; exact Media.Cut.applyAll _ _
  · rcases htorn page hpage with hold | ⟨c, hc, rfl⟩
    · exact .inl hold
    · refine .inr ⟨hcut, c, hc, rfl, ?_⟩
      have hsync : M.applyAll t.io.file (t.manifestRequests m ++ [.sync]) =
          M.applyAll t.io.file (t.manifestRequests m) := Media.applyAll_append _ _
      cases hwrite : writeManifest t.io (t.stamped m) with
      | error err => rw [nextCommitted, hwrite] at hc; cases hc
      | ok written =>
          obtain ⟨e, manifest, io⟩ := written
          rw [nextCommitted_eq hwrite] at hc
          obtain rfl := Option.some.inj hc
          rw [hsync, applyAll_manifestRequests hwrite] at hcut
          exact holds_next h hschema hwrite
            (fun _ hin hapart => hcut.spared (spares_metaRequests hapart) hin) hpage

theorem txnId_nextCommitted {c : Committed} (h : t.nextCommitted m = some c) :
    c.metaPage.txnId = t.committed.metaPage.txnId + 1 ∧ c.slot = t.nextSlot := by
  cases hwrite : writeManifest t.io (t.stamped m) with
  | error err => rw [nextCommitted, hwrite] at h; cases h
  | ok written =>
      obtain ⟨e, manifest, io⟩ := written
      rw [nextCommitted_eq hwrite] at h
      obtain rfl := Option.some.inj h
      exact ⟨txnId_stamped hwrite, rfl⟩

/-- A commit that returned is in the file, and the commit before it still is. -/
theorem commit_holds (h : Holds t.io.file kind t.header t.committed)
    (hslot : t.nextSlot = t.committed.slot.other) (hschema : t.SchemaWritten m)
    (hcommit : t.commit m = .ok t') :
    Holds t'.io.file kind t'.header t'.committed ∧ Holds t'.io.file kind t.header t.committed := by
  obtain ⟨e, manifest, io, hwrite, hsize, rfl⟩ := commit_ok hcommit
  have hpage : M.read (M.write io.file t.nextSlot.offset (.metaPage (t.nextPage e manifest io.len)))
      t.nextSlot.page .metaPage = .ok (.metaPage (t.nextPage e manifest io.len)) := by
    rw [Media.write_eq hsize]
    exact M.read_write_self io.file t.nextSlot.page (.metaPage _) hsize
  have hleft : ∀ extent : Extent, extent.stop ≤ M.len io.file → t.nextSlot.page.Apart extent → _ :=
    fun extent hin hapart => Media.apply_spared (spares_meta hsize hapart) hin
  refine ⟨holds_next h hschema hwrite hleft (readMeta_of_read hpage), ?_⟩
  refine h.spared fun extent hextent hin => ?_
  obtain ⟨-, -, -, -, -, -, -, -, hfile⟩ := writeManifest_ok hwrite
  obtain ⟨hin', hread⟩ := Media.applyAll_spared (spares_writeManifest hwrite hin) hin
  rw [← hfile] at hin' hread
  obtain ⟨hin'', hread'⟩ := hleft extent hin' (nextSlot_apart h hslot extent hextent)
  exact ⟨hin'', fun k => (hread' k).trans (hread k)⟩

theorem commit_recovers (h : Holds t.io.file kind t.header t.committed)
    (hslot : t.nextSlot = t.committed.slot.other) (hschema : t.SchemaWritten m)
    (hcommit : t.commit m = .ok t') : Recovers t'.io.file kind t'.header t'.committed := by
  obtain ⟨hnew, hold⟩ := commit_holds h hslot hschema hcommit
  refine ⟨hnew, fun page hpage => ?_⟩
  obtain ⟨e, manifest, io, hwrite, -, rfl⟩ := commit_ok hcommit
  have hother : t.nextSlot.other = t.committed.slot := by rw [hslot, MetaSlot.other_other]
  dsimp only at hpage hold ⊢
  rw [hother, hold.page] at hpage
  rw [← Option.some.inj hpage]
  have htxn : (t.nextPage e manifest io.len).txnId = t.committed.metaPage.txnId + 1 := txnId_stamped hwrite
  omega

/-- A freshly created file: the schema blob, the seed manifest and the first manifest lie one after the
other, both slots are complete commits, and nothing is free. -/
structure Fresh (t : TableFile M) (kind : TableKind) (seed : MetaPage) : Prop where
  recovers : Recovers t.io.file kind t.header t.committed
  slot : t.committed.slot = .a
  nextSlot : t.nextSlot = .b
  seedPage : readMeta t.io.file .b = some seed
  seedTxn : seed.txnId = 0
  seedManifest : readManifest t.io.file seed =
    .ok { Manifest.empty seed.manifest.stop with schema := t.header.schema }
  nextSlotManifest : t.nextSlotManifest = seed.manifest
  manifest : t.committed.manifest =
    { Manifest.empty t.committed.metaPage.manifest.stop with schema := t.header.schema, txnId := 1 }
  metaPage : t.committed.metaPage.txnId = 1 ∧ t.committed.metaPage.checkpointLsn = 0
  schema : readSchema t.io.file t.header.schema = .ok t.schema
  schemaAt : t.header.schema.offset = dataStart ∧ 0 < t.header.schema.len ∧
    t.header.schema.stop ≤ seed.manifest.offset
  seedAt : 0 < seed.manifest.len ∧ seed.manifest.stop ≤ t.committed.metaPage.manifest.offset
  manifestAt : 0 < t.committed.metaPage.manifest.len ∧ t.io.len = t.committed.metaPage.manifest.stop

/-- A write that lands in the file keeps its length and every extent beside it. -/
theorem request_write_spared (io : FileIo M) {offset n : Nat} {blob : Blob τ ν} (extent : Extent)
    (hsize : M.size blob = .ok n) (hin : extent.stop ≤ io.len)
    (hapart : offset + n ≤ extent.offset ∨ extent.stop ≤ offset) :
    extent.stop ≤ (io.request (.write offset blob)).len ∧
      ∀ k, M.read (io.request (.write offset blob)).file extent k = M.read io.file extent k := by
  have hspares : M.Spares extent (.write offset blob) := ⟨n, hsize, hapart⟩
  exact Media.apply_spared hspares hin

theorem request_write_self (io : FileIo M) (extent : Extent) {blob : Blob τ ν}
    (hsize : M.size blob = .ok extent.len) :
    M.read (io.request (.write extent.offset blob)).file extent (blob.kind M.metaExtent) = .ok blob := by
  change M.read (M.write _ _ _) _ _ = _
  rw [Media.write_eq hsize]
  exact M.read_write_self io.file extent blob hsize

theorem writeManifest_spared {io io' : FileIo M} {e extent : Extent} {manifest : Manifest}
    (hwrite : writeManifest io m = .ok (e, manifest, io')) (hin : extent.stop ≤ io.len) :
    extent.stop ≤ io'.len ∧ ∀ k, M.read io'.file extent k = M.read io.file extent k := by
  obtain ⟨-, -, -, -, -, -, -, -, hfile⟩ := writeManifest_ok hwrite
  have := Media.applyAll_spared (spares_writeManifest hwrite hin) hin
  rwa [← hfile] at this

theorem seed_pages (io : FileIo M) {pageA pageB : MetaPage} {na nb : Nat} (hstart : dataStart ≤ io.len)
    (hna : M.size (.metaPage pageA) = .ok na) (hnb : M.size (.metaPage pageB) = .ok nb)
    {io' : FileIo M} (hio : io' = (io.request (.write MetaSlot.b.offset (.metaPage pageB))).request
      (.write MetaSlot.a.offset (.metaPage pageA))) :
    io'.len = io.len ∧ readMeta io'.file .a = some pageA ∧ readMeta io'.file .b = some pageB ∧
      ∀ extent : Extent, extent.stop ≤ io.len → (∀ slot : MetaSlot, slot.page.Apart extent) →
        ∀ k, M.read io'.file extent k = M.read io.file extent k := by
  subst hio
  obtain rfl := M.size_metaPage _ _ hna
  obtain rfl := M.size_metaPage _ _ hnb
  have hlow : metaBOffset + metaPageSize ≤ dataStart ∧ metaAOffset + metaPageSize ≤ dataStart := by decide
  have hlenB : (io.request (.write MetaSlot.b.offset (.metaPage pageB))).len = io.len := by
    rw [FileIo.len_write _ hnb, MetaSlot.offset]
    omega
  refine ⟨?_, ?_, ?_, fun extent hin hapart k => ?_⟩
  · rw [FileIo.len_write _ hna, hlenB, MetaSlot.offset]
    omega
  · exact readMeta_of_read (request_write_self _ MetaSlot.a.page hna)
  · refine readMeta_of_read (((request_write_spared _ _ hna ?_ ?_).2 _).trans
      (request_write_self _ MetaSlot.b.page hnb))
    · rw [hlenB]
      exact (MetaSlot.page_stop_le .b).trans hstart
    · exact MetaSlot.page_apart_other .a
  · refine ((request_write_spared _ _ hna ?_ (hapart .a)).2 k).trans
      ((request_write_spared _ _ hnb hin (hapart .b)).2 k)
    rw [hlenB]
    exact hin

/-- What `create` has written before its manifests: the schema behind the reserved pages, and the header in front of them. -/
structure Begun (io : FileIo M) (header : FileHeader) (schemaAt : Extent) (schema : Schema τ) : Prop where
  offset : schemaAt.offset = dataStart
  pos : 0 < schemaAt.len
  stop_le : schemaAt.stop ≤ io.len
  schema : M.read io.file schemaAt .schema = .ok (.schema schema)
  header : M.read io.file headerExtent .header = .ok (.header header)

namespace Begun

variable {io io' : FileIo M} {header : FileHeader} {schemaAt : Extent} {schema : Schema τ}

theorem of_create (happend : ((FileIo.mk M.create []).setLen dataStart).append (.schema schema) = .ok (schemaAt, io))
    (hheader : io.writeAt 0 (.header header) = .ok io') : Begun io' header schemaAt schema := by
  obtain ⟨n, hn, rfl, hio⟩ := FileIo.append_ok happend
  obtain ⟨k, hk, hio'⟩ := FileIo.writeAt_ok hheader
  obtain rfl := M.size_header _ _ hk
  have hlen₀ : ((FileIo.mk M.create []).setLen dataStart).len = dataStart := M.len_setLen _ _
  rw [hlen₀] at hio ⊢
  have hlen : io.len = dataStart + n := by
    rw [hio, FileIo.len_write _ hn, hlen₀]
    omega
  have hself : M.read io.file ⟨dataStart, n⟩ .schema = .ok (.schema schema) := by
    rw [hio]
    exact request_write_self _ ⟨dataStart, n⟩ hn
  -- the header ends before the data begins
  have hhdr : headerSize ≤ dataStart := by decide
  obtain ⟨hin, hread⟩ := request_write_spared io ⟨dataStart, n⟩ hk hlen.ge (.inl hhdr)
  rw [← hio'] at hin hread
  refine ⟨rfl, M.size_pos _ _ hn, hin, (hread _).trans hself, ?_⟩
  rw [hio']
  exact request_write_self io headerExtent hk

theorem headerExtent_le (h : Begun io header schemaAt schema) : headerExtent.stop ≤ io.len := by
  have hhdr : headerExtent.stop ≤ dataStart := by decide
  have hstop : schemaAt.stop = schemaAt.offset + schemaAt.len := rfl
  have hoffset := h.offset
  have hle := h.stop_le
  omega

theorem dataStart_le (h : Begun io header schemaAt schema) : dataStart ≤ io.len := by
  have hstop : schemaAt.stop = schemaAt.offset + schemaAt.len := rfl
  have hoffset := h.offset
  have hle := h.stop_le
  omega

theorem writeManifest {e : Extent} {m manifest : Manifest} (h : Begun io header schemaAt schema)
    (hwrite : LocalTables.writeManifest io m = .ok (e, manifest, io')) : Begun io' header schemaAt schema := by
  obtain ⟨hin, hschema⟩ := writeManifest_spared hwrite h.stop_le
  obtain ⟨-, hheader⟩ := writeManifest_spared hwrite h.headerExtent_le
  exact ⟨h.offset, h.pos, hin, (hschema _).trans h.schema, (hheader _).trans h.header⟩

theorem pages (h : Begun io header schemaAt schema) (hlen : io'.len = io.len)
    (hkept : ∀ extent : Extent, extent.stop ≤ io.len → (∀ slot : MetaSlot, slot.page.Apart extent) →
      ∀ k, M.read io'.file extent k = M.read io.file extent k) : Begun io' header schemaAt schema := by
  refine ⟨h.offset, h.pos, hlen ▸ h.stop_le, ?_, ?_⟩
  · rw [hkept schemaAt h.stop_le fun slot => page_apart_of_dataStart slot h.offset.ge]
    exact h.schema
  · rw [hkept headerExtent h.headerExtent_le fun slot => (headerExtent_apart_page slot).symm]
    exact h.header

theorem schemaExtent_eq (h : Begun io header schemaAt schema) (other : FileHeader) {m : Manifest} (hm : m.schema = schemaAt) :
    schemaExtent other m = schemaAt := by
  have hne : ¬(m.schema.isEmpty = true) := by
    rw [hm, Extent.isEmpty_iff]
    exact h.pos.ne'
  rw [schemaExtent, if_neg hne, hm]

end Begun

theorem create_fresh {schema : Schema τ} {fingerprint : Schema τ → Nat}
    {newTableUuid : Extent → List UInt8} {existing : Option M.File}
    (h : create M kind schema fingerprint newTableUuid existing = .ok t) :
    ∃ seed, t.Fresh kind seed ∧ t.schema = schema := by
  obtain ⟨-, h⟩ := ite_throw_eq_ok.mp h
  obtain ⟨⟨schemaAt, io₁⟩, happend, h⟩ := bind_eq_ok.mp h
  obtain ⟨io₂, hheader, h⟩ := bind_eq_ok.mp h
  obtain ⟨⟨e₀, seed, io₃⟩, hseed, h⟩ := bind_eq_ok.mp h
  obtain ⟨⟨e₁, manifest, io₄⟩, hmanifest, h⟩ := bind_eq_ok.mp h
  obtain ⟨io₅, hmetaB, h⟩ := bind_eq_ok.mp h
  obtain ⟨io₆, hmetaA, h⟩ := bind_eq_ok.mp h
  obtain rfl := Except.ok.inj h
  dsimp only at happend hheader hseed hmanifest hmetaB hmetaA
  have hbegun₂ := Begun.of_create happend hheader
  have hbegun₄ := (hbegun₂.writeManifest hseed).writeManifest hmanifest
  obtain ⟨-, -, -, rfl, hio₀, hseedLen, he₀, -⟩ := writeManifest_ok hseed
  obtain ⟨-, -, -, rfl, hio₃, hmanLen, he₁, -⟩ := writeManifest_ok hmanifest
  obtain ⟨hlen₃, hseedRead⟩ := writeManifest_read hseed
  obtain ⟨hlen₄, hmanRead⟩ := writeManifest_read hmanifest
  obtain ⟨pb, hpb, rfl⟩ := FileIo.writeAt_ok hmetaB
  obtain ⟨pa, hpa, hio₆⟩ := FileIo.writeAt_ok hmetaA
  obtain ⟨hlen₆, hreadA, hreadB, hkept⟩ := seed_pages io₄.syncData hbegun₄.dataStart_le hpa hpb hio₆
  have hbegun : Begun io₆ _ schemaAt schema := hbegun₄.pages hlen₆ hkept
  have hstart := hbegun₂.dataStart_le
  have hstop₀ : e₀.stop = e₀.offset + e₀.len := rfl
  have hstop₁ : e₁.stop = e₁.offset + e₁.len := rfl
  have hlen : io₆.len = e₁.stop := hlen₆.trans hlen₄
  -- what the data region holds survives the meta pages
  have hdata : ∀ extent : Extent, dataStart ≤ extent.offset → extent.stop ≤ io₄.len →
      ∀ kind, M.read io₆.file extent kind = M.read io₄.file extent kind := fun extent hlow hin =>
    hkept extent hin fun slot => page_apart_of_dataStart slot hlow
  have hseedRead' : M.read io₆.file e₀ .manifest =
      .ok (.manifest { Manifest.empty e₀.stop with schema := schemaAt }) := by
    obtain ⟨hin₄, hread₄⟩ := writeManifest_spared hmanifest hlen₃.ge
    rw [hdata e₀ (by omega) hin₄, hread₄, hseedRead]
    rfl
  have hmanRead' : M.read io₆.file e₁ .manifest =
      .ok (.manifest { Manifest.empty e₁.stop with schema := schemaAt, txnId := 1 }) := by
    rw [hdata e₁ (by omega) hlen₄.ge, hmanRead]
    rfl
  refine ⟨_, {
    recovers := ?_
    slot := rfl
    nextSlot := rfl
    seedPage := hreadB
    seedTxn := rfl
    seedManifest := readManifest_of_read hseedRead'
    nextSlotManifest := rfl
    manifest := rfl
    metaPage := ⟨rfl, rfl⟩
    schema := readSchema_of_read hbegun.schema
    schemaAt := ⟨hbegun.offset, hbegun.pos, hbegun₂.stop_le.trans hio₀⟩
    seedAt := ⟨he₀, by rw [← hlen₃]; exact hio₃⟩
    manifestAt := ⟨he₁, hlen⟩ }, rfl⟩
  refine {
    header_read := readHeader_of_read hbegun.header
    valid := FileHeader.validate_new _ _ _ _
    page := hreadA
    manifest := readManifest_of_read hmanRead'
    txn := rfl
    older := ?_
    schema := ⟨schema, ?_⟩
    start := hbegun.dataStart_le
    manifestAt := ⟨?_, hlen.ge⟩
    schemaAt := ?_ }
  · rw [hbegun.schemaExtent_eq _ rfl]
    exact readSchema_of_read hbegun.schema
  · dsimp only
    omega
  · rw [hbegun.schemaExtent_eq _ rfl]
    exact ⟨hbegun.offset.ge, hbegun.stop_le⟩
  · intro page hpage
    rw [← Option.some.inj (hreadB.symm.trans hpage)]
    exact Nat.zero_lt_one

end TableFile

end LocalTables
