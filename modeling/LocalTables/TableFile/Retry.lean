import LocalTables.TableFile.Crash
import LocalTables.TableFile.Fallback

/-! A handle that goes on after a failed commit. The failure may leave the new meta page whole on
disk, so that the file is one txn ahead of the handle; the handle keeps allocating from the manifest
it knows. What the file opens to is sound as long as those allocations keep off what the commit on
disk references. -/

namespace LocalTables

variable {τ ν : Type} {M : Media τ ν}

/-- The blobs a commit was prepared with, by the offset they were written at, the latest first. -/
abbrev Contents (τ ν : Type) := List (Nat × Blob τ ν)

/-- Note the blobs that requests write. -/
def Contents.record (contents : Contents τ ν) (ops : List (IoOp τ ν)) : Contents τ ν :=
  ops.foldl (fun contents op =>
    match op with
    | .write offset blob => (offset, blob) :: contents
    | .setLen _ => contents
    | .sync => contents) contents

def Contents.at (contents : Contents τ ν) (e : Extent) : Option (Blob τ ν) := contents.lookup e.offset

/-- The requests a handle has made since `io`. -/
def FileIo.since (io io' : FileIo M) : List (IoOp τ ν) := io'.log.drop io.log.length

theorem FileIo.Issued.since {io io' : FileIo M} {ops : List (IoOp τ ν)} (h : Issued io ops io') :
    FileIo.since io io' = ops := by
  rw [FileIo.since, h.1, List.drop_left]

/-- Every extent of the list reads back the blob that was written for it. -/
def Stored (file : M.File) (contents : Contents τ ν) (es : List Extent) : Prop :=
  ∀ e ∈ es, ∃ blob, contents.at e = some blob ∧ M.read file e (blob.kind M.metaExtent) = .ok blob

theorem Stored.congr {file left : M.File} {contents : Contents τ ν} {es : List Extent}
    (h : Stored file contents es) (hread : ∀ e ∈ es, ∀ k, M.read left e k = M.read file e k) :
    Stored left contents es := by
  intro e he
  obtain ⟨blob, hat, hblob⟩ := h e he
  exact ⟨blob, hat, (hread e he _).trans hblob⟩

namespace Edit

variable {allowed : Manifest → Nat → Nat → Prop} {minActiveTxn : Nat} {p p' : Pending M}

/-- The blobs are still where the pending manifest says, its new one included. -/
theorem stored (hedit : Edit allowed minActiveTxn p p') {contents : Contents τ ν}
    (h : Stored p.io.file contents p.manifest.refs) (hin : ∀ e ∈ p.manifest.refs, e.stop ≤ p.io.len)
    (hpos : ∀ e ∈ p.manifest.refs, 0 < e.len)
    (hapart : ∀ len align, align.isPowerOfTwo → 0 < len → allowed p.manifest len align →
      ∀ e ∈ p.manifest.refs, (allocate p.manifest len align minActiveTxn).1.Apart e) :
    Stored p'.io.file (contents.record (FileIo.since p.io p'.io)) p'.manifest.refs := by
  rcases hedit.mem_refs with ⟨hio, hrefs⟩ | ⟨blob, align, e, m', halign, hallowed, hwrite, hrefs⟩
  · have hnone : FileIo.since p.io p'.io = [] := by rw [hio]; exact (FileIo.Issued.refl p.io).since
    rw [hnone, hio]
    exact fun extent hextent => h extent (hrefs extent hextent)
  · obtain ⟨hsize, hlen, halloc, hissued⟩ := writeAllocated_ok halign hwrite
    obtain ⟨-, hread⟩ := writeAllocated_read halign hwrite
    have hnoted : contents.record (FileIo.since p.io p'.io) = (e.offset, blob) :: contents := by
      rw [hissued.since, Contents.record, List.foldl_append]
      unfold FileIo.growth
      split <;> rfl
    rw [hnoted]
    intro extent hextent
    rcases hrefs extent hextent with hold | rfl
    · have hoff : e.Apart extent := by
        have := hapart e.len align halign hlen hallowed extent hold
        rwa [halloc] at this
      obtain ⟨old, hat, hblob⟩ := h extent hold
      have hne : extent.offset ≠ e.offset := by
        have := hpos extent hold
        have hstop : extent.stop = extent.offset + extent.len := rfl
        have hestop : e.stop = e.offset + e.len := rfl
        simp only [Interval.Apart] at hoff
        omega
      refine ⟨old, ?_, ?_⟩
      · rw [Contents.at, List.lookup_cons, beq_eq_false_iff_ne.mpr hne]
        exact hat
      · rw [hissued.2]
        exact ((Media.applyAll_spared (spares_allocatedWrite hsize (hin extent hold) hoff)
          (hin extent hold)).2 _).trans hblob
    · exact ⟨blob, by rw [Contents.at, List.lookup_cons, beq_self_eq_true], hread⟩

end Edit

namespace TableFile

variable (t : TableFile M)

/-- The commit the other slot holds whole, when it is newer than the one the handle knows. -/
def newer : Option Committed :=
  match readMeta t.io.file t.nextSlot with
  | none => none
  | some page =>
      match readManifest t.io.file page with
      | .error _ => none
      | .ok manifest =>
          if t.committed.metaPage.txnId < page.txnId ∧ manifest.txnId = page.txnId then
            some ⟨page, t.nextSlot, manifest⟩
          else none

/-- An allocation that keeps off what the newer commit on disk references and, where it grows the file,
off the manifest extent the next commit frees. -/
def KeepsClear (minActiveTxn : Nat) (m : Manifest) (len align : Nat) : Prop :=
  KeepsOff t.nextSlotManifest minActiveTxn m len align ∧
    ∀ c ∈ t.newer, ∀ e ∈ c.manifest.refs, (allocate m len align minActiveTxn).1.Apart e

/-- A manifest frame that was written over fails its checksum: what still reads back from the extent
the other slot names is what was there. -/
def Intact (left : M.File) : Prop :=
  ∀ page manifest, readMeta t.io.file t.nextSlot = some page → readManifest left page = .ok manifest →
    readManifest t.io.file page = .ok manifest

/-- The handle that would know the commit in the other slot. -/
def advanced (c : Committed) : TableFile M :=
  { t with
    committed := c
    nextSlot := t.committed.slot
    nextSlotManifest := t.committed.metaPage.manifest }

variable {t}

theorem newer_eq_some {c : Committed} : t.newer = some c ↔
    readMeta t.io.file t.nextSlot = some c.metaPage ∧ readManifest t.io.file c.metaPage = .ok c.manifest ∧
      t.committed.metaPage.txnId < c.metaPage.txnId ∧ c.manifest.txnId = c.metaPage.txnId ∧
      c.slot = t.nextSlot := by
  obtain ⟨metaPage, slot, manifest⟩ := c
  unfold newer
  dsimp only
  constructor
  · intro h
    split at h
    · cases h
    · next page hpage =>
        split at h
        · cases h
        · next manifest' hmanifest =>
            split at h
            · next hcond =>
                cases h
                exact ⟨hpage, hmanifest, hcond.1, hcond.2, rfl⟩
            · cases h
  · rintro ⟨hpage, hmanifest, hlt, htxn, rfl⟩
    simp only [hpage, hmanifest, hlt, htxn, and_self, if_true]

instance (minActiveTxn : Nat) (m : Manifest) (len align : Nat) :
    Decidable (t.KeepsClear minActiveTxn m len align) :=
  decidable_of_iff (KeepsOff t.nextSlotManifest minActiveTxn m len align ∧
    ∀ c ∈ t.newer.toList, ∀ e ∈ c.manifest.refs, (allocate m len align minActiveTxn).1.Apart e)
    (by simp only [KeepsClear, Option.mem_toList, Option.mem_def])

/-- What `Intact` asks of a concrete file. -/
def intactCheck (t : TableFile M) (left : M.File) : Bool :=
  match readMeta t.io.file t.nextSlot with
  | none => true
  | some page =>
      match readManifest left page, readManifest t.io.file page with
      | .error _, _ => true
      | .ok manifest, .ok manifest' => manifest = manifest'
      | .ok _, .error _ => false

theorem intact_of_check {left : M.File} (h : t.intactCheck left = true) : t.Intact left := by
  intro page manifest hpage hmanifest
  simp only [intactCheck, hpage, hmanifest] at h
  split at h
  · cases ‹Except.ok _ = Except.error _›
  · next heq hread =>
      cases heq
      rw [hread, of_decide_eq_true h]
  · cases h

/-- The page a commit that returned has written is the one it announced. -/
theorem commit_page {t' : TableFile M} {m : Manifest} (hcommit : t.commit m = .ok t') :
    t.nextCommitted m = some t'.committed ∧ readMeta t'.io.file t.nextSlot = some t'.committed.metaPage := by
  obtain ⟨e, manifest, io, hwrite, hsize, rfl⟩ := commit_ok hcommit
  exact ⟨nextCommitted_eq hwrite, readMeta_of_read (request_write_self io.syncData t.nextSlot.page hsize)⟩

end TableFile

/-- A handle, the commit being prepared on it with the blobs written for it, and every commit that was
attempted so far with the blobs written for that one, the latest first. -/
structure Session (M : Media τ ν) where
  handle : TableFile M
  pending : Manifest
  contents : Contents τ ν
  history : List (Committed × Contents τ ν)

namespace Session

/-- The caller starts over from the committed manifest. -/
def restart (s : Session M) : Session M :=
  { s with
    pending := s.handle.beginManifest
    contents := (s.history.lookup s.handle.committed).getD [] }

/-- A handle that was just opened. -/
def opening (t : TableFile M) (history : List (Committed × Contents τ ν)) : Session M :=
  ⟨t, t.beginManifest, (history.lookup t.committed).getD [], history⟩

/-- The same handle over another state of the file. -/
def withIo (s : Session M) (io : FileIo M) : Session M := { s with handle := { s.handle with io := io } }

/-- What one call on the handle, or a crash, can do. `allowed` restricts the allocations. -/
inductive Step (allowed : TableFile M → Nat → Manifest → Nat → Nat → Prop) (kind : TableKind) :
    Session M → Session M → Prop where
  | restart (s : Session M) : Step allowed kind s s.restart
  | edit {s : Session M} {io : FileIo M} {m : Manifest} (minActiveTxn : Nat)
      (hmin : minActiveTxn ≤ s.handle.committed.metaPage.txnId)
      (hedit : Edit (allowed s.handle minActiveTxn) minActiveTxn ⟨s.handle.io, s.pending⟩ ⟨io, m⟩)
      (hintact : s.handle.Intact io.file) :
      Step allowed kind s { s.withIo io with
        pending := m
        contents := s.contents.record (FileIo.since s.handle.io io) }
  /-- The write stopped part way. The caller drops the manifest it was preparing. -/
  | editFails {s : Session M} {io : FileIo M} {m : Manifest} {left : M.File} (minActiveTxn : Nat)
      (hmin : minActiveTxn ≤ s.handle.committed.metaPage.txnId)
      (hedit : Edit (allowed s.handle minActiveTxn) minActiveTxn ⟨s.handle.io, s.pending⟩ ⟨io, m⟩)
      (hcut : M.Cut s.handle.io.file (FileIo.since s.handle.io io) left)
      (hintact : s.handle.Intact left) :
      Step allowed kind s (s.withIo ⟨left, s.handle.io.log⟩).restart
  | commit {s : Session M} {t' : TableFile M} (h : s.handle.commit s.pending = .ok t') :
      Step allowed kind s ⟨t', t'.beginManifest, s.contents, (t'.committed, s.contents) :: s.history⟩
  /-- The commit stopped part way, its last sync included. The handle keeps what it knew. -/
  | commitFails {s : Session M} {left : M.File}
      (hcut : M.Cut s.handle.io.file (s.handle.commitRequests s.pending) left)
      (htorn : s.handle.TornFails s.pending left) :
      Step allowed kind s { s.withIo ⟨left, s.handle.io.log⟩ with
        history := ((s.handle.nextCommitted s.pending).toList.map fun c => (c, s.contents)) ++ s.history }
  | reopen {s : Session M} {t' : TableFile M} (h : TableFile.openFile s.handle.io.file kind = .ok t') :
      Step allowed kind s (opening t' s.history)

/-- A run on a table file that was just created. -/
inductive Run (allowed : TableFile M → Nat → Manifest → Nat → Nat → Prop) (kind : TableKind) :
    Session M → Prop where
  | create {t : TableFile M} (schema : Schema τ) (fingerprint : Schema τ → Nat)
      (newTableUuid : Extent → List UInt8)
      (h : TableFile.create M kind schema fingerprint newTableUuid none = .ok t) :
      Run allowed kind ⟨t, t.beginManifest, [], [(t.committed, [])]⟩
  | step {s s' : Session M} (hrun : Run allowed kind s) (hstep : Step allowed kind s s') : Run allowed kind s'

/-- The commit was attempted, and the file holds the blobs written for it. -/
def Kept (file : M.File) (history : List (Committed × Contents τ ν)) (c : Committed) : Prop :=
  ∃ stored, history.lookup c = some stored ∧ Stored file stored c.manifest.refs

/-- What the handle knows is in the file. -/
structure Base (kind : TableKind) (s : Session M) : Prop where
  holds : Holds s.handle.io.file kind s.handle.header s.handle.committed
  nextSlot : s.handle.nextSlot = s.handle.committed.slot.other
  ledger : Ledger { s.handle with nextSlotManifest := Extent.empty } s.pending s.handle.nextSlotManifest
  begins : Ledger { s.handle with nextSlotManifest := Extent.empty } s.handle.beginManifest
    s.handle.nextSlotManifest
  schema : s.pending.schema = s.handle.committed.manifest.schema
  kept : Kept s.handle.io.file s.history s.handle.committed
  stored : Stored s.handle.io.file s.contents s.pending.refs

/-- The page in the other slot is ahead of the handle. Its manifest may have been lost since; if not,
the whole commit is there. -/
structure Ahead (kind : TableKind) (t : TableFile M) (history : List (Committed × Contents τ ν))
    (page : MetaPage) : Prop where
  txn : t.committed.metaPage.txnId < page.txnId
  placed : t.committed.manifest.fileLen ≤ page.manifest.offset ∧ page.manifest.stop ≤ t.io.len
  whole : ∀ c, t.newer = some c → Holds t.io.file kind t.header c ∧ Kept t.io.file history c ∧
    Settled (t.advanced c) ∧ c.manifest.schema = t.committed.manifest.schema

/-- The invariant of a run. -/
structure Inv (kind : TableKind) (s : Session M) : Prop extends Base kind s where
  other : ∀ page, readMeta s.handle.io.file s.handle.nextSlot = some page →
    page.txnId < s.handle.committed.metaPage.txnId ∧ s.handle.nextSlotManifest = page.manifest ∨
      Ahead kind s.handle s.history page

theorem Kept.push {file : M.File} {history : List (Committed × Contents τ ν)} {c c' : Committed}
    (h : Kept file history c) (hne : c ≠ c') (contents : Contents τ ν) :
    Kept file ((c', contents) :: history) c := by
  obtain ⟨stored, hlookup, hstored⟩ := h
  exact ⟨stored, by rw [List.lookup_cons, beq_eq_false_iff_ne.mpr hne]; exact hlookup, hstored⟩

theorem Kept.congr {file left : M.File} {history : List (Committed × Contents τ ν)} {c : Committed}
    (h : Kept file history c) (hread : ∀ e ∈ c.manifest.refs, ∀ k, M.read left e k = M.read file e k) :
    Kept left history c := by
  obtain ⟨stored, hlookup, hstored⟩ := h
  exact ⟨stored, hlookup, hstored.congr hread⟩

variable {kind : TableKind} {s : Session M}

/-- A longer file in which the handle's commit and the pending one read as before. -/
theorem Base.withIo (h : Base kind s) {io : FileIo M} (hlen : s.handle.io.len ≤ io.len)
    (hneeds : ∀ e ∈ s.handle.committed.needs s.handle.header, ∀ k,
      M.read io.file e k = M.read s.handle.io.file e k)
    (hrefs : ∀ e, e ∈ s.handle.committed.manifest.refs ∨ e ∈ s.pending.refs → ∀ k,
      M.read io.file e k = M.read s.handle.io.file e k) : Base kind (s.withIo io) where
  holds := h.holds.congr (fun e he => ⟨(h.holds.needs_in e he).trans hlen, hneeds e he⟩) (h.holds.start.trans hlen)
  nextSlot := h.nextSlot
  ledger := h.ledger.withIo hlen
  begins := h.begins.withIo hlen
  schema := h.schema
  kept := h.kept.congr fun e he => hrefs e (.inl he)
  stored := h.stored.congr fun e he => hrefs e (.inr he)

/-- What a run must not write over: the commit the handle knows, the one it prepares, the page of the
other slot, and what that slot's commit references. -/
def Guards (s : Session M) (e : Extent) : Prop :=
  e ∈ s.handle.committed.needs s.handle.header ∨ e = s.handle.nextSlot.page ∨
    e ∈ s.handle.committed.manifest.refs ∨ e ∈ s.pending.refs ∨ ∃ c ∈ s.handle.newer, e ∈ c.manifest.refs

theorem Base.start (h : Base kind s) : dataStart ≤ s.handle.io.len := h.holds.start

/-- Opening the other slot's commit needs the same header and schema. -/
theorem Inv.newer (h : Inv kind s) {c : Committed} (hc : s.handle.newer = some c) :
    Holds s.handle.io.file kind s.handle.header c ∧ Kept s.handle.io.file s.history c ∧
      Settled (s.handle.advanced c) ∧ c.manifest.schema = s.handle.committed.manifest.schema := by
  obtain ⟨hpage, -, hlt, -⟩ := TableFile.newer_eq_some.mp hc
  rcases h.other c.metaPage hpage with ⟨holder, -⟩ | hahead
  · omega
  · exact hahead.whole c hc

/-- The segments and bitmaps of a commit lie between the fixed regions and the end of the file. -/
theorem Inv.newer_refs (h : Inv kind s) {c : Committed} (hc : s.handle.newer = some c) {e : Extent}
    (he : e ∈ c.manifest.refs) : dataStart ≤ e.offset ∧ e.stop ≤ s.handle.io.len := by
  obtain ⟨-, -, hsettled, -⟩ := h.newer hc
  have hbounds := hsettled.accounted.bounds (.inl (List.mem_append_right _ he)) (hsettled.refsPos e he)
  exact ⟨hbounds.1, hbounds.2.trans hsettled.inFile⟩

theorem Base.refs (h : Base kind s) {e : Extent}
    (he : e ∈ s.handle.committed.manifest.refs ∨ e ∈ s.pending.refs) :
    dataStart ≤ e.offset ∧ e.stop ≤ s.handle.io.len := by
  rcases he with he | he
  · have hbounds := h.begins.accounted.bounds (.inl (List.mem_append_right _ he)) (h.begins.refsPos e he)
    exact ⟨hbounds.1, hbounds.2.trans h.begins.inFile⟩
  · have hbounds := h.ledger.accounted.bounds (.inl (List.mem_append_right _ he)) (h.ledger.refsPos e he)
    exact ⟨hbounds.1, hbounds.2.trans h.ledger.inFile⟩

theorem Inv.guards_in (h : Inv kind s) {e : Extent} (he : s.Guards e) : e.stop ≤ s.handle.io.len := by
  rcases he with he | rfl | he | he | ⟨c, hc, he⟩
  · exact h.holds.needs_in e he
  · exact (MetaSlot.page_stop_le _).trans h.start
  · exact (h.refs (.inl he)).2
  · exact (h.refs (.inr he)).2
  · exact (h.newer_refs hc he).2

/-- No allocation that keeps clear meets any of it. -/
theorem Inv.guards_apart (h : Inv kind s) {len align minActiveTxn : Nat}
    (hmin : minActiveTxn ≤ s.handle.committed.metaPage.txnId) (halign : align.isPowerOfTwo) (hlen : 0 < len)
    (hclear : s.handle.KeepsClear minActiveTxn s.pending len align) {e : Extent} (he : s.Guards e) :
    (allocate s.pending len align minActiveTxn).1.Apart e := by
  rcases he with he | rfl | he | he | ⟨c, hc, he⟩
  · refine h.ledger.accounted.allocate_apart minActiveTxn hlen halign ?_
    rcases TableFile.needs_in_use (t := { s.handle with nextSlotManifest := Extent.empty }) h.ledger.spacePos e
      (.inl he) with hlow | ⟨hmem, hpos⟩
    · exact .inl hlow
    · exact .inr ⟨List.mem_append_left _ hmem, hpos⟩
  · exact h.ledger.accounted.allocate_apart minActiveTxn hlen halign (.inl (MetaSlot.page_stop_le _))
  · exact (h.ledger.current e he).allocate_apart hlen halign (hmin.trans (Nat.le_succ _))
  · exact h.ledger.accounted.allocate_apart minActiveTxn hlen halign
      (.inr ⟨List.mem_append_right _ he, h.ledger.refsPos e he⟩)
  · exact hclear.2 c hc e he

end Session

/-- A commit is in a file that holds its page and its manifest, and the rest of it as before. -/
theorem Holds.reread {file left : M.File} {kind : TableKind} {header : FileHeader} {c : Committed}
    (h : Holds file kind header c) (hlen : M.len file ≤ M.len left)
    (hheader : ∀ k, M.read left headerExtent k = M.read file headerExtent k)
    (hschema : ∀ k, M.read left (schemaExtent header c.manifest) k =
      M.read file (schemaExtent header c.manifest) k)
    (hpage : readMeta left c.slot = some c.metaPage) (hmanifest : readManifest left c.metaPage = .ok c.manifest) :
    Holds left kind header c where
  header_read := (readHeader_congr hheader).trans h.header_read
  valid := h.valid
  page := hpage
  manifest := hmanifest
  txn := h.txn
  schema := by
    obtain ⟨schema, hread⟩ := h.schema
    exact ⟨schema, (readSchema_congr hschema).trans hread⟩
  start := h.start.trans hlen
  manifestAt := ⟨h.manifestAt.1, h.manifestAt.2.trans hlen⟩
  schemaAt := ⟨h.schemaAt.1, h.schemaAt.2.trans hlen⟩

namespace Session

variable {kind : TableKind} {s : Session M}

/-- The page in the other slot stays ahead while what it needs besides its manifest is left alone. -/
theorem Ahead.withIo {t : TableFile M} {history : List (Committed × Contents τ ν)} {page : MetaPage}
    (h : Ahead kind t history page) (io : FileIo M) (hlen : t.io.len ≤ io.len)
    (hneeds : ∀ e ∈ t.committed.needs t.header, ∀ k, M.read io.file e k = M.read t.io.file e k)
    (hpage : readMeta io.file t.nextSlot = readMeta t.io.file t.nextSlot) (hintact : t.Intact io.file)
    (hrefs : ∀ c, t.newer = some c → ∀ e ∈ c.manifest.refs, ∀ k, M.read io.file e k = M.read t.io.file e k) :
    Ahead kind { t with io := io } history page := by
  refine ⟨h.txn, ⟨h.placed.1, h.placed.2.trans hlen⟩, fun c hc => ?_⟩
  obtain ⟨hcpage, hcmanifest, hlt, htxn, hslot⟩ := TableFile.newer_eq_some.mp hc
  dsimp only at hcpage hcmanifest hlt htxn hslot
  have hold : t.newer = some c := TableFile.newer_eq_some.mpr
    ⟨hpage ▸ hcpage, hintact _ _ (hpage ▸ hcpage) hcmanifest, hlt, htxn, hslot⟩
  obtain ⟨hcholds, hckept, hsettled, hschema⟩ := h.whole c hold
  have hext : schemaExtent t.header c.manifest = schemaExtent t.header t.committed.manifest := by
    rw [schemaExtent, schemaExtent, hschema]
  refine ⟨hcholds.reread hlen (hneeds _ (by simp [Committed.needs])) ?_ (hslot ▸ hcpage) hcmanifest,
    hckept.congr (hrefs c hold), Settled.withIo hsettled hlen, hschema⟩
  rw [hext]
  exact hneeds _ (by simp [Committed.needs])

/-- The invariant over a longer file in which what the run guards reads as before. -/
theorem Inv.withIo (h : Inv kind s) (io : FileIo M) (hlen : s.handle.io.len ≤ io.len)
    (hread : ∀ e, s.Guards e → ∀ k, M.read io.file e k = M.read s.handle.io.file e k)
    (hintact : s.handle.Intact io.file) : Inv kind (s.withIo io) := by
  have hneeds : ∀ e ∈ s.handle.committed.needs s.handle.header, ∀ k, M.read io.file e k =
      M.read s.handle.io.file e k := fun e he => hread e (.inl he)
  have hpage : readMeta io.file s.handle.nextSlot = readMeta s.handle.io.file s.handle.nextSlot :=
    readMeta_congr (hread _ (.inr (.inl rfl)))
  refine ⟨h.toBase.withIo hlen hneeds fun e he => hread e ?_, fun page hother => ?_⟩
  · exact he.elim (fun he => .inr (.inr (.inl he))) fun he => .inr (.inr (.inr (.inl he)))
  · exact (h.other page (hpage ▸ hother)).imp id fun hahead => hahead.withIo io hlen hneeds hpage hintact
      fun c hc e he => hread e (.inr (.inr (.inr (.inr ⟨c, hc, he⟩))))

theorem Inv.restart (h : Inv kind s) : Inv kind s.restart := by
  obtain ⟨stored, hlookup, hstored⟩ := h.kept
  refine ⟨⟨h.holds, h.nextSlot, h.begins, h.begins, rfl, h.kept, ?_⟩, h.other⟩
  change Stored _ ((s.history.lookup s.handle.committed).getD []) _
  rw [hlookup]
  exact hstored

/-- What an edit that keeps clear leaves of the guarded extents, however far it gets. -/
theorem Inv.edit_spares (h : Inv kind s) {minActiveTxn : Nat} {io : FileIo M} {m : Manifest}
    (hmin : minActiveTxn ≤ s.handle.committed.metaPage.txnId)
    (hedit : Edit (s.handle.KeepsClear minActiveTxn) minActiveTxn ⟨s.handle.io, s.pending⟩ ⟨io, m⟩)
    {left : M.File} (hcut : M.Cut s.handle.io.file (FileIo.since s.handle.io io) left) :
    s.handle.io.len ≤ M.len left ∧
      ∀ e, s.Guards e → ∀ k, M.read left e k = M.read s.handle.io.file e k := by
  obtain ⟨ops, hissued, hset, hspares⟩ := hedit.issued
  dsimp only at hissued hset hspares
  rw [hissued.since] at hcut
  refine ⟨hcut.len_le hset le_rfl, fun e he => ?_⟩
  have hin := h.guards_in he
  exact (hcut.spared (hspares e hin fun len align halign hlen hclear =>
    h.guards_apart hmin halign hlen hclear he) hin).2

theorem Inv.edit (h : Inv kind s) {minActiveTxn : Nat} {io : FileIo M} {m : Manifest}
    (hmin : minActiveTxn ≤ s.handle.committed.metaPage.txnId)
    (hedit : Edit (s.handle.KeepsClear minActiveTxn) minActiveTxn ⟨s.handle.io, s.pending⟩ ⟨io, m⟩)
    (hintact : s.handle.Intact io.file) :
    Inv kind { s.withIo io with
      pending := m
      contents := s.contents.record (FileIo.since s.handle.io io) } := by
  have hwhole : M.Cut s.handle.io.file (FileIo.since s.handle.io io) io.file := by
    obtain ⟨ops, hissued, -⟩ := hedit.issued
    dsimp only at hissued
    rw [hissued.since, hissued.2]
    exact Media.Cut.applyAll _ _
  obtain ⟨hlen, hread⟩ := h.edit_spares hmin hedit hwhole
  have hmoved := h.withIo _ hlen hread hintact
  refine ⟨⟨hmoved.holds, hmoved.nextSlot, ?_, hmoved.begins, hedit.fixed.2.trans h.schema, hmoved.kept, ?_⟩,
    hmoved.other⟩
  · refine Ledger.edit (t := { s.handle with nextSlotManifest := Extent.empty }) h.ledger hedit ?_
    rcases Nat.eq_zero_or_pos s.handle.nextSlotManifest.len with hzero | hpos
    · exact .inl hzero
    · exact .inr fun len align halign hlen hclear =>
        Unshared.allocate_apart h.ledger.floatOnce hlen halign hpos hclear.1
  · exact hedit.stored h.stored (fun e he => (h.refs (.inr he)).2) h.ledger.refsPos
      fun len align halign hlen hclear e he =>
        h.guards_apart hmin halign hlen hclear (.inr (.inr (.inr (.inl he))))

theorem Base.schemaWritten (h : Base kind s) : s.handle.SchemaWritten s.pending := by
  have hext : schemaExtent s.handle.header s.pending =
      schemaExtent s.handle.header s.handle.committed.manifest := by
    rw [schemaExtent, schemaExtent, h.schema]
  rw [TableFile.SchemaWritten, hext]
  exact ⟨h.holds.schema, h.holds.schemaAt⟩

/-- What a commit leaves of the data region, however far it gets. -/
theorem commit_spares {left : M.File} (hcut : M.Cut s.handle.io.file (s.handle.commitRequests s.pending) left) {e : Extent}
    (hlow : dataStart ≤ e.offset) (hin : e.stop ≤ s.handle.io.len) :
    ∀ k, M.read left e k = M.read s.handle.io.file e k :=
  (TableFile.spared_commitCut hcut hin (TableFile.page_apart_of_dataStart _ hlow)).2

/-- The manifest of an attempted commit is placed past everything the file held, so no commit the file
holds is the same. -/
theorem next_placed {c : Committed} (hc : s.handle.nextCommitted s.pending = some c) :
    s.handle.io.len ≤ c.metaPage.manifest.offset ∧ c.manifest.refs = s.pending.refs ∧
      c.manifest.schema = s.pending.schema ∧ c.metaPage.txnId = s.handle.committed.metaPage.txnId + 1 ∧
      ∀ c' : Committed, c'.metaPage.manifest.stop ≤ s.handle.io.len → 0 < c'.metaPage.manifest.len → c' ≠ c := by
  cases hwrite : writeManifest s.handle.io (s.handle.stamped s.pending) with
  | error err => rw [TableFile.nextCommitted, hwrite] at hc; cases hc
  | ok written =>
      obtain ⟨e, manifest, io⟩ := written
      have htxn := TableFile.txnId_stamped hwrite
      rw [TableFile.nextCommitted_eq hwrite] at hc
      obtain rfl := Option.some.inj hc
      obtain ⟨-, -, -, rfl, hio, -⟩ := writeManifest_ok hwrite
      refine ⟨hio, Manifest.refs_congr (Manifest.segments_free _), Manifest.schema_free _ _, htxn, ?_⟩
      rintro c' hin hpos rfl
      have hstop : e.stop = e.offset + e.len := rfl
      dsimp only [TableFile.nextPage] at hin hpos
      omega

theorem Base.commit_settled (h : Base kind s) {t' : TableFile M} (hcommit : s.handle.commit s.pending = .ok t') :
    Settled t' := Ledger.commit_float h.ledger h.start hcommit h.schema

theorem Inv.commit (h : Inv kind s) {t' : TableFile M} (hcommit : s.handle.commit s.pending = .ok t') :
    Inv kind ⟨t', t'.beginManifest, s.contents, (t'.committed, s.contents) :: s.history⟩ := by
  have hsettled := h.commit_settled hcommit
  obtain ⟨hnew, hold⟩ := TableFile.commit_holds h.holds h.nextSlot h.schemaWritten hcommit
  have hcut : M.Cut s.handle.io.file (s.handle.commitRequests s.pending) t'.io.file := by
    rw [(TableFile.issued_commit hcommit).2]
    exact Media.Cut.applyAll _ _
  obtain ⟨e, -, -, -, -, -, -, -, htxn, -, hslot, hnext, hloser, hmanifest⟩ :=
    TableFile.commit_manifest h.start hcommit
  have hrefs : t'.committed.manifest.refs = s.pending.refs := by
    refine Manifest.refs_congr ?_
    rw [hmanifest]
    exact Manifest.segments_free _
  have hstored : Stored t'.io.file s.contents t'.committed.manifest.refs := by
    rw [hrefs]
    exact h.stored.congr fun e he => commit_spares hcut (h.refs (.inr he)).1 (h.refs (.inr he)).2
  refine ⟨⟨hnew, ?_, hsettled.floating, hsettled.floating, rfl, ⟨s.contents, ?_, hstored⟩, hstored⟩, ?_⟩
  · rw [hnext, hslot]
  · rw [List.lookup_cons, beq_self_eq_true]
  · -- the slot of the commit before is now the older one
    intro page hpage
    dsimp only at hpage ⊢
    rw [hnext, h.nextSlot, MetaSlot.other_other, hold.page] at hpage
    rw [← Option.some.inj hpage, hloser, htxn]
    exact .inl ⟨Nat.lt_succ_self _, rfl⟩

theorem Base.history {history : List (Committed × Contents τ ν)} (h : Base kind s)
    (hkept : Kept s.handle.io.file history s.handle.committed) : Base kind { s with history := history } :=
  ⟨h.holds, h.nextSlot, h.ledger, h.begins, h.schema, hkept, h.stored⟩

/-- A failed commit whose page is whole leaves the file ahead of the handle. -/
theorem Inv.next_ahead (h : Inv kind s) {left : M.File} {c : Committed} {t' : TableFile M}
    (hc : s.handle.nextCommitted s.pending = some c) (hholds : Holds left kind s.handle.header c)
    (hcommit : s.handle.commit s.pending = .ok t') (hcommitted : t'.committed = c)
    (hstored : Stored left s.contents s.pending.refs) :
    Ahead kind { s.handle with io := ⟨left, s.handle.io.log⟩ }
      (((s.handle.nextCommitted s.pending).toList.map fun c => (c, s.contents)) ++ s.history) c.metaPage := by
  obtain ⟨hplaced, hrefs, hschema, htxn, -⟩ := next_placed hc
  have hsettled := h.commit_settled hcommit
  obtain ⟨e, -, -, -, hend, hheader, -, hat, -, -, -, -, hloser, hmanifest⟩ :=
    TableFile.commit_manifest h.start hcommit
  refine ⟨?_, ⟨h.begins.inFile.trans hplaced, hholds.manifestAt.2⟩, fun c' hnewer => ?_⟩
  · change s.handle.committed.metaPage.txnId < _
    omega
  · -- what reads back from the slot is that commit
    obtain ⟨hpage, hread, -, -, hslot⟩ := TableFile.newer_eq_some.mp hnewer
    obtain rfl : c' = c := by
      obtain ⟨cpage, cslot, cmanifest⟩ := c'
      obtain rfl : cslot = c.slot := hslot.trans (TableFile.txnId_nextCommitted hc).2.symm
      obtain rfl : cpage = c.metaPage := by
        have hheld := hholds.page
        rw [(TableFile.txnId_nextCommitted hc).2] at hheld
        exact Option.some.inj (hpage.symm.trans hheld)
      obtain rfl : cmanifest = c.manifest := Except.ok.inj (hread.symm.trans hholds.manifest)
      rfl
    refine ⟨hholds, ⟨s.contents, ?_, hrefs ▸ hstored⟩, ?_, hschema.trans h.schema⟩
    · rw [hc]
      exact List.lookup_cons_self
    · have hspace : (TableFile.advanced { s.handle with io := ⟨left, s.handle.io.log⟩ } c').space = t'.space := by
        simp only [TableFile.space, TableFile.advanced, hheader, hloser, hcommitted]
      subst hcommitted
      refine ⟨?_, ?_, hsettled.refsPos, ?_⟩
      · rw [hspace]
        exact hsettled.accounted
      · change t'.committed.manifest.fileLen ≤ M.len left
        rw [hmanifest, ← hat]
        exact hholds.manifestAt.2
      · have hpos := hsettled.spacePos
        rw [hheader] at hpos
        exact hpos

theorem Inv.commitFails (h : Inv kind s) {left : M.File}
    (hcut : M.Cut s.handle.io.file (s.handle.commitRequests s.pending) left)
    (htorn : s.handle.TornFails s.pending left) :
    Inv kind { s.withIo ⟨left, s.handle.io.log⟩ with
      history := ((s.handle.nextCommitted s.pending).toList.map fun c => (c, s.contents)) ++ s.history } := by
  have hlen : s.handle.io.len ≤ M.len left := TableFile.len_commitCut h.start hcut
  have hdata : ∀ {e : Extent}, dataStart ≤ e.offset ∧ e.stop ≤ s.handle.io.len → ∀ k, M.read left e k =
      M.read s.handle.io.file e k := fun he => commit_spares hcut he.1 he.2
  have hneeds : ∀ e ∈ s.handle.committed.needs s.handle.header, ∀ k, M.read left e k =
      M.read s.handle.io.file e k := fun e he =>
    (TableFile.spared_commitCut hcut (h.holds.needs_in e he)
      (TableFile.nextSlot_apart h.holds h.nextSlot e (.inl he))).2
  have hpush : ∀ {file : M.File} {c : Committed}, c.metaPage.manifest.stop ≤ s.handle.io.len →
      0 < c.metaPage.manifest.len → Kept file s.history c →
      Kept file (((s.handle.nextCommitted s.pending).toList.map fun c => (c, s.contents)) ++ s.history) c := by
    intro file c hin hpos hkept
    cases hc : s.handle.nextCommitted s.pending with
    | none => exact hkept
    | some next => exact hkept.push ((next_placed hc).2.2.2.2 c hin hpos) _
  have hbase : Base kind (s.withIo ⟨left, s.handle.io.log⟩) :=
    h.toBase.withIo hlen hneeds fun e he => hdata (h.refs he)
  refine ⟨hbase.history (hpush h.holds.manifestAt.2
    (h.begins.spacePos s.handle.committed.metaPage.manifest (by simp)) hbase.kept), ?_⟩
  intro page hpage
  rcases TableFile.torn_page h.holds h.nextSlot h.schemaWritten hcut htorn hpage with hsame | ⟨c, t', hc, rfl, hholds, hcommit, rfl⟩
  · refine (h.other page hsame).imp id fun hahead => ?_
    have hat : dataStart ≤ page.manifest.offset := h.begins.accounted.start.trans hahead.placed.1
    have hintact : s.handle.Intact left := by
      intro page' manifest hpage' hmanifest
      obtain rfl := Option.some.inj (hsame.symm.trans hpage')
      rw [← hmanifest]
      exact (readManifest_congr (hdata ⟨hat, hahead.placed.2⟩)).symm
    have hmoved := hahead.withIo ⟨left, s.handle.io.log⟩ hlen hneeds (hpage.trans hsame.symm) hintact
      fun c hc e he => hdata (h.newer_refs hc he)
    refine ⟨hmoved.txn, hmoved.placed, fun c hc => ?_⟩
    obtain ⟨hcholds, hkept, hsettled, hschema⟩ := hmoved.whole c hc
    obtain ⟨hcpage, -⟩ := TableFile.newer_eq_some.mp hc
    have hceq : c.metaPage = page := Option.some.inj (hcpage.symm.trans hpage)
    exact ⟨hcholds, hpush (hceq ▸ hahead.placed.2) (hsettled.spacePos _ (by simp [TableFile.advanced])) hkept,
      hsettled, hschema⟩
  · exact .inr (h.next_ahead hc hholds hcommit rfl hbase.stored)

/-- Opening a file that still has the handle's commit in force. -/
theorem Inv.reopened (h : Inv kind s) {t' : TableFile M} (hio : t'.io = ⟨s.handle.io.file, []⟩)
    (hheader : t'.header = s.handle.header) (hcommitted : t'.committed = s.handle.committed)
    (hnext : t'.nextSlot = s.handle.nextSlot)
    (hplaced : t'.nextSlotManifest = s.handle.nextSlotManifest ∨ t'.nextSlotManifest.len = 0 ∨
      s.handle.committed.manifest.fileLen ≤ t'.nextSlotManifest.offset ∧
        t'.nextSlotManifest.stop ≤ s.handle.io.len)
    (hother : ∀ page, readMeta s.handle.io.file s.handle.nextSlot = some page →
      page.txnId < s.handle.committed.metaPage.txnId → t'.nextSlotManifest = page.manifest) :
    Inv kind (opening t' s.history) := by
  obtain ⟨io, schema, header, nextSlot, nextSlotManifest, committed⟩ := t'
  dsimp only at hio hheader hcommitted hnext hplaced hother
  subst hio hheader hcommitted hnext
  have hledger : Ledger { s.handle with nextSlotManifest := Extent.empty } s.handle.beginManifest
      nextSlotManifest := by
    rcases hplaced with rfl | hplaced
    · exact h.begins
    · exact h.begins.refloat hplaced
  have hbegins : Ledger (M := M) ⟨⟨s.handle.io.file, []⟩, schema, s.handle.header, s.handle.nextSlot, Extent.empty,
      s.handle.committed⟩ s.handle.beginManifest nextSlotManifest :=
    ⟨hledger.txn, hledger.accounted, hledger.floatOnce, hledger.floatAt, hledger.inFile, hledger.refsPos,
      hledger.spacePos, hledger.current⟩
  have hinv : Inv kind (M := M) ⟨⟨⟨s.handle.io.file, []⟩, schema, s.handle.header, s.handle.nextSlot,
      nextSlotManifest, s.handle.committed⟩, s.handle.beginManifest,
      (s.history.lookup s.handle.committed).getD [], s.history⟩ := by
    refine ⟨⟨h.holds, h.nextSlot, hbegins, hbegins, rfl, h.kept, ?_⟩, fun page hpage => ?_⟩
    · exact h.restart.stored
    · rcases h.other page hpage with ⟨hlt, -⟩ | hahead
      · exact .inl ⟨hlt, hother page hpage hlt⟩
      · refine .inr ⟨hahead.txn, hahead.placed, fun c hc => ?_⟩
        obtain ⟨hholds, hkept, hsettled, hschema⟩ := hahead.whole c hc
        exact ⟨hholds, hkept, ⟨hsettled.accounted, hsettled.inFile, hsettled.refsPos, hsettled.spacePos⟩, hschema⟩
  exact hinv

/-- The commit the handle knows stays in force while the other slot is torn or older. -/
theorem Inv.opens_same (h : Inv kind s)
    (holder : ∀ page, readMeta s.handle.io.file s.handle.nextSlot = some page →
      page.txnId < s.handle.committed.metaPage.txnId) :
    ∃ t', TableFile.openFile s.handle.io.file kind = .ok t' ∧ Inv kind (opening t' s.history) := by
  have hrec : Recovers s.handle.io.file kind s.handle.header s.handle.committed :=
    ⟨h.holds, h.nextSlot ▸ holder⟩
  obtain ⟨t', hopen, hio, hheader, hcommitted, hnext, hloser, -⟩ := hrec.openFile
  rw [← h.nextSlot] at hloser hnext
  refine ⟨t', hopen, h.reopened hio hheader hcommitted hnext ?_ fun page hpage _ => by rw [hloser, hpage]; rfl⟩
  cases hpage : readMeta s.handle.io.file s.handle.nextSlot with
  | none => exact .inr (.inl (by rw [hloser, hpage]; rfl))
  | some page =>
      rcases h.other page hpage with ⟨-, hsame⟩ | hahead
      · exact .inl (by rw [hloser, hpage, hsame]; rfl)
      · exact absurd hahead.txn (holder page hpage).asymm

/-- Once the other slot is whole and newer, opening moves to its commit. -/
theorem Inv.opens_newer (h : Inv kind s) {c : Committed} (hnewer : s.handle.newer = some c) :
    ∃ t', TableFile.openFile s.handle.io.file kind = .ok t' ∧ Inv kind (opening t' s.history) := by
  obtain ⟨hholds, ⟨stored, hlookup, hstored⟩, hsettled, hschema⟩ := h.newer hnewer
  obtain ⟨-, -, hlt, -, hslot⟩ := TableFile.newer_eq_some.mp hnewer
  have hback : c.slot.other = s.handle.committed.slot := by rw [hslot, h.nextSlot, MetaSlot.other_other]
  have hrec : Recovers s.handle.io.file kind s.handle.header c := by
    refine ⟨hholds, fun other hother => ?_⟩
    rw [hback, h.holds.page] at hother
    rw [← Option.some.inj hother]
    exact hlt
  obtain ⟨t', hopen, hio, hheader, hcommitted, hnext, hloser, -⟩ := hrec.openFile
  rw [hback, h.holds.page] at hloser
  obtain ⟨io, schema, header, nextSlot, nextSlotManifest, committed⟩ := t'
  dsimp only [Option.map_some, Option.getD_some] at hio hheader hcommitted hnext hloser
  subst hio hheader hcommitted hnext hloser
  have hfloat := hsettled.floating
  have hbegins : Ledger (M := M) ⟨⟨s.handle.io.file, []⟩, schema, s.handle.header, committed.slot.other,
      Extent.empty, committed⟩ { committed.manifest with txnId := committed.metaPage.txnId + 1 }
      s.handle.committed.metaPage.manifest :=
    ⟨hfloat.txn, hfloat.accounted, hfloat.floatOnce, hfloat.floatAt, hfloat.inFile, hfloat.refsPos,
      hfloat.spacePos, hfloat.current⟩
  refine ⟨_, hopen, ⟨⟨hholds, rfl, hbegins, hbegins, rfl, ⟨stored, hlookup, hstored⟩, ?_⟩, ?_⟩⟩
  · change Stored _ ((s.history.lookup committed).getD []) _
    rw [hlookup]
    exact hstored
  · intro other hother
    change readMeta s.handle.io.file committed.slot.other = some other at hother
    rw [hback, h.holds.page] at hother
    rw [← Option.some.inj hother]
    exact .inl ⟨hlt, rfl⟩

/-- A newer slot that has lost its manifest is passed over. -/
theorem Inv.opens_lost (h : Inv kind s) {page : MetaPage}
    (hpage : readMeta s.handle.io.file s.handle.nextSlot = some page)
    (hahead : Ahead kind s.handle s.history page) (hnewer : s.handle.newer = none) :
    ∃ t', TableFile.openFile s.handle.io.file kind = .ok t' ∧ Inv kind (opening t' s.history) := by
  have hlost : ∀ m, readManifest s.handle.io.file page = .ok m → m.txnId ≠ page.txnId := by
    intro m hm htxn
    have := TableFile.newer_eq_some (c := ⟨page, s.handle.nextSlot, m⟩).mpr ⟨hpage, hm, hahead.txn, htxn, rfl⟩
    rw [hnewer] at this
    cases this
  obtain ⟨schema, hschema⟩ := h.holds.schema
  have hcommitted := readCommitted_fallback h.holds.page h.holds.manifest h.holds.txn (h.nextSlot ▸ hpage)
    hahead.txn hlost
  refine ⟨⟨⟨s.handle.io.file, []⟩, schema, s.handle.header, s.handle.nextSlot, page.manifest,
    s.handle.committed⟩, ?_, h.reopened rfl rfl rfl rfl (.inr (.inr hahead.placed)) ?_⟩
  · rw [TableFile.openFile, h.holds.header_read, h.nextSlot]
    simp only [bind, Except.bind, h.holds.valid, hcommitted, hschema, pure, Except.pure]
  · intro other hother hlt
    rw [← Option.some.inj (hpage.symm.trans hother)] at hlt
    exact absurd hahead.txn hlt.asymm

/-- Every file of a run opens, and the run may go on from there. -/
theorem Inv.opens (h : Inv kind s) :
    ∃ t', TableFile.openFile s.handle.io.file kind = .ok t' ∧ Inv kind (opening t' s.history) := by
  cases hpage : readMeta s.handle.io.file s.handle.nextSlot with
  | none => exact h.opens_same fun page hother => nomatch hpage.symm.trans hother
  | some page =>
      rcases h.other page hpage with ⟨hlt, -⟩ | hahead
      · exact h.opens_same fun other hother => Option.some.inj (hpage.symm.trans hother) ▸ hlt
      · cases hnewer : s.handle.newer with
        | some c => exact h.opens_newer hnewer
        | none => exact h.opens_lost hpage hahead hnewer

theorem Inv.create {t : TableFile M} {schema : Schema τ} {fingerprint : Schema τ → Nat}
    {newTableUuid : Extent → List UInt8}
    (h : TableFile.create M kind schema fingerprint newTableUuid none = .ok t) :
    Inv kind ⟨t, t.beginManifest, [], [(t.committed, [])]⟩ := by
  obtain ⟨seed, hfresh, -⟩ := TableFile.create_fresh h
  have hrefs : t.committed.manifest.refs = [] := by rw [hfresh.manifest]; rfl
  have hstored : Stored t.io.file [] t.committed.manifest.refs := by
    rw [hrefs]
    exact fun _ he => nomatch he
  refine ⟨⟨hfresh.recovers.toHolds, ?_, hfresh.settled.floating, hfresh.settled.floating, rfl,
    ⟨[], List.lookup_cons_self, hstored⟩, hstored⟩, fun page hpage => ?_⟩
  · change t.nextSlot = _
    rw [hfresh.nextSlot, hfresh.slot]
    rfl
  · dsimp only at hpage ⊢
    rw [hfresh.nextSlot, hfresh.seedPage] at hpage
    rw [← Option.some.inj hpage, hfresh.seedTxn, hfresh.metaPage.1]
    exact .inl ⟨Nat.zero_lt_one, hfresh.nextSlotManifest⟩

theorem Inv.step (h : Inv kind s) {s' : Session M} (hstep : Step TableFile.KeepsClear kind s s') :
    Inv kind s' := by
  cases hstep with
  | restart => exact h.restart
  | edit minActiveTxn hmin hedit hintact => exact h.edit hmin hedit hintact
  | editFails minActiveTxn hmin hedit hcut hintact =>
      obtain ⟨hlen, hread⟩ := h.edit_spares hmin hedit hcut
      exact (h.withIo ⟨_, s.handle.io.log⟩ hlen hread hintact).restart
  | commit hcommit => exact h.commit hcommit
  | commitFails hcut htorn => exact h.commitFails hcut htorn
  | reopen hopen =>
      obtain ⟨t', hopen', hinv⟩ := h.opens
      obtain rfl := Except.ok.inj (hopen.symm.trans hopen')
      exact hinv

theorem Run.inv (hrun : Run TableFile.KeepsClear kind s) : Inv kind s := by
  induction hrun with
  | create schema fingerprint newTableUuid h => exact Inv.create h
  | step _ hstep ih => exact ih.step hstep

/-- In every run whose allocations keep clear of the newer commit on disk, whatever commits fail and
wherever they stop, the file opens to a commit that was attempted, and every extent of that commit
holds the blob written for it. -/
theorem retry_opens_intact (hrun : Run TableFile.KeepsClear kind s) :
    ∃ t' stored, TableFile.openFile s.handle.io.file kind = .ok t' ∧
      s.history.lookup t'.committed = some stored ∧
      Stored s.handle.io.file stored t'.committed.manifest.refs := by
  obtain ⟨t', hopen, hinv⟩ := hrun.inv.opens
  obtain ⟨stored, hlookup, hstored⟩ := hinv.kept
  have hfile : t'.io.file = s.handle.io.file := by
    obtain ⟨header, -, h⟩ := bind_eq_ok.mp hopen
    obtain ⟨-, -, h⟩ := bind_eq_ok.mp h
    obtain ⟨c, -, h⟩ := bind_eq_ok.mp h
    obtain ⟨schema, -, h⟩ := bind_eq_ok.mp h
    obtain rfl := Except.ok.inj h
    rfl
  refine ⟨t', stored, hopen, hlookup, ?_⟩
  rw [← hfile]
  exact hstored

/-- A commit that fails at its last sync, with everything it wrote on disk. -/
theorem Step.lastSyncFails {allowed : TableFile M → Nat → Manifest → Nat → Nat → Prop} {t' : TableFile M}
    (hcommit : s.handle.commit s.pending = .ok t') :
    Step allowed kind s { s.withIo ⟨t'.io.file, s.handle.io.log⟩ with
      history := (t'.committed, s.contents) :: s.history } := by
  obtain ⟨hnext, hpage⟩ := TableFile.commit_page hcommit
  have hstep : Step allowed kind s { s.withIo ⟨t'.io.file, s.handle.io.log⟩ with
      history := ((s.handle.nextCommitted s.pending).toList.map fun c => (c, s.contents)) ++ s.history } :=
    .commitFails ((TableFile.issued_commit hcommit).2 ▸ Media.Cut.applyAll _ _) fun page hread =>
      .inr ⟨_, hnext, Option.some.inj (hpage.symm.trans hread)⟩
  rw [hnext] at hstep
  exact hstep

section Concrete

/-- One row under segment id 0. -/
def oneRow (value : Nat) : SegmentData Nat := ⟨0, 0, 1, [[value]], 0⟩

/-- A created table whose first segment was committed up to the last sync, which failed; the caller
starts over and writes another segment. -/
def reusedSegment : Except Error (PlainFile × FileIo (Journal plainSizes) × Extent × PlainFile ×
    FileIo (Journal plainSizes) × PlainFile) := do
  let t ← TableFile.create (Journal plainSizes) .columnar plainSchema (fun _ => 0) (fun _ => []) none
  let (e, m, io) ← writeAllocated t.io t.beginManifest (.segment (oneRow 7)) segmentAlign 1
  let failed ← TableFile.commit { t with io := io } (m.addSegment e ⟨e.offset + 0, 32⟩ 1)
  let (_, _, io') ← writeAllocated (M := Journal plainSizes) ⟨failed.io.file, io.log⟩ t.beginManifest
    (.segment (oneRow 8)) segmentAlign 1
  let opened ← TableFile.openFile (M := Journal plainSizes) io'.file .columnar
  return (t, io, e, failed, io', opened)

/-- The segment a plain journal reads at an extent. -/
def segmentAt (file : JournalFile Unit Nat) (e : Extent) : Option (SegmentData Nat) :=
  match (Journal plainSizes).read file e (.segment ⟨0, 32⟩) with
  | .ok (.segment data) => some data
  | _ => none

theorem segmentAt_of_read {file : JournalFile Unit Nat} {e : Extent} {data : SegmentData Nat}
    (h : (Journal plainSizes).read file e (.segment ⟨0, 32⟩) = .ok (.segment data)) :
    segmentAt file e = some data := by
  rw [segmentAt, h]

/-- The second segment lands on the first, and the file opens to the commit that references the first. -/
theorem retry_overwrites_commit : ∃ s : Session (Journal plainSizes),
    Run (fun _ _ _ _ _ => True) .columnar s ∧
      ¬∃ t' stored, TableFile.openFile s.handle.io.file .columnar = .ok t' ∧
        s.history.lookup t'.committed = some stored ∧
        Stored s.handle.io.file stored t'.committed.manifest.refs := by
  have hcheck : (match reusedSegment with
      | .ok (t, io, e, failed, io', opened) => decide (t.committed.metaPage.txnId = 1 ∧
          t.intactCheck io.file = true ∧
          Contents.record [] (FileIo.since t.io io) = [(e.offset, .segment (oneRow 7))] ∧
          TableFile.intactCheck { t with io := ⟨failed.io.file, io.log⟩ } io'.file = true ∧
          opened.committed = failed.committed ∧ opened.committed.manifest.refs = [e] ∧
          segmentAt io'.file e = some (oneRow 8))
      | .error _ => false) = true := by decide +kernel
  cases hrun : reusedSegment with
  | error e => rw [hrun] at hcheck; cases hcheck
  | ok result =>
      obtain ⟨t, io, e, failed, io', opened⟩ := result
      rw [hrun] at hcheck
      obtain ⟨htxn, hintact, hcontents, hintact', hsame, hrefs, hread⟩ := of_decide_eq_true hcheck
      obtain ⟨t, hcreate, hrun⟩ := bind_eq_ok.mp hrun
      obtain ⟨⟨e, m, io⟩, hwrite, hrun⟩ := bind_eq_ok.mp hrun
      obtain ⟨failed, hcommit, hrun⟩ := bind_eq_ok.mp hrun
      obtain ⟨⟨e', m', io'⟩, hwrite', hrun⟩ := bind_eq_ok.mp hrun
      obtain ⟨opened, hopen, hrun⟩ := bind_eq_ok.mp hrun
      cases hrun
      have hstart : Run (fun _ _ _ _ _ => True) .columnar ⟨t, t.beginManifest, [], [(t.committed, [])]⟩ :=
        .create plainSchema (fun _ => 0) (fun _ => []) hcreate
      have hfirst := hstart.step (.edit 1 htxn.ge (.segment (oneRow 7) trivial hwrite)
        (TableFile.intact_of_check hintact))
      have hfailed := hfirst.step (.lastSyncFails hcommit)
      have hagain := (hfailed.step (.restart _)).step (.edit 1 htxn.ge (.segment (oneRow 8) trivial hwrite')
        (TableFile.intact_of_check hintact'))
      refine ⟨_, hagain, ?_⟩
      rintro ⟨t', stored, hopen', hlookup, hstored⟩
      obtain rfl := Except.ok.inj (hopen.symm.trans hopen')
      have hnoted : stored = [(e.offset, .segment (oneRow 7))] := by
        have hlookup' : ((failed.committed, Contents.record [] (FileIo.since t.io io)) ::
            [(t.committed, [])]).lookup opened.committed = some stored := hlookup
        rw [hsame, List.lookup_cons_self, hcontents] at hlookup'
        exact (Option.some.inj hlookup').symm
      rw [hrefs] at hstored
      obtain ⟨blob, hat, hblob⟩ := hstored e (List.mem_singleton_self e)
      rw [hnoted, Contents.at, List.lookup_cons_self] at hat
      obtain rfl := Option.some.inj hat
      have hother : some (oneRow 8) = some (oneRow 7) := hread.symm.trans (segmentAt_of_read hblob)
      exact absurd hother (by decide)

/-- A committed segment, a bitmap for it whose commit failed at the last sync, and another segment
written after that. -/
def clearSegment : Except Error (PlainFile × FileIo (Journal plainSizes) × Extent × PlainFile ×
    FileIo (Journal plainSizes) × Extent × PlainFile × FileIo (Journal plainSizes) × Extent) := do
  let t ← TableFile.create (Journal plainSizes) .columnar plainSchema (fun _ => 0) (fun _ => []) none
  let (e, m, io) ← writeAllocated t.io t.beginManifest (.segment (oneRow 7)) segmentAlign 1
  let t₁ ← TableFile.commit { t with io := io } (m.addSegment e ⟨e.offset + 0, 32⟩ 1)
  let (e₁, m₁, io₁) ← writeAllocated t₁.io t₁.beginManifest (.deletes {0}) bufferAlign 2
  let failed ← TableFile.commit { t₁ with io := io₁ } (m₁.replaceDeletes 0 none e₁ 1)
  let (e₂, _, io₂) ← writeAllocated (M := Journal plainSizes) ⟨failed.io.file, io₁.log⟩ t₁.beginManifest
    (.segment (oneRow 8)) segmentAlign 2
  return (t, io, e, t₁, io₁, e₁, failed, io₂, e₂)

/-- The file is ahead of the handle, the new segment keeps clear of the bitmap, and the file opens to
the commit with the bitmap. -/
theorem retry_opens_bitmap : ∃ s : Session (Journal plainSizes), Run TableFile.KeepsClear .columnar s ∧
    s.handle.newer.isSome ∧ s.pending.segments.length = 2 ∧
    ∃ t' stored, TableFile.openFile s.handle.io.file .columnar = .ok t' ∧
      s.history.lookup t'.committed = some stored ∧
      Stored s.handle.io.file stored t'.committed.manifest.refs := by
  have hcheck : (match clearSegment with
      | .ok (t, io, e, t₁, io₁, e₁, failed, io₂, e₂) => decide (t.committed.metaPage.txnId = 1 ∧
          t₁.committed.metaPage.txnId = 2 ∧
          t.KeepsClear 1 t.beginManifest e.len segmentAlign ∧ t.intactCheck io.file = true ∧
          t₁.KeepsClear 2 t₁.beginManifest e₁.len bufferAlign ∧ t₁.intactCheck io₁.file = true ∧
          t₁.beginManifest.segment 0 = some ⟨0, ⟨20480, 40⟩, ⟨20480, 32⟩, 1, 0, none⟩ ∧
          TableFile.KeepsClear { t₁ with io := ⟨failed.io.file, io₁.log⟩ } 2 t₁.beginManifest e₂.len
            segmentAlign ∧
          TableFile.intactCheck { t₁ with io := ⟨failed.io.file, io₁.log⟩ } io₂.file = true ∧
          (TableFile.newer { t₁ with io := io₂ }).isSome ∧
          (allocate t₁.beginManifest e₂.len segmentAlign 2).2.segments.length = 1)
      | .error _ => false) = true := by decide +kernel
  cases hrun : clearSegment with
  | error e => rw [hrun] at hcheck; cases hcheck
  | ok result =>
      obtain ⟨t, io, e, t₁, io₁, e₁, failed, io₂, e₂⟩ := result
      rw [hrun] at hcheck
      obtain ⟨htxn, htxn₁, hclear, hintact, hclear₁, hintact₁, hentry, hclear₂, hintact₂, hnewer, hlength⟩ :=
        of_decide_eq_true hcheck
      obtain ⟨t, hcreate, hrun⟩ := bind_eq_ok.mp hrun
      obtain ⟨⟨e, m, io⟩, hwrite, hrun⟩ := bind_eq_ok.mp hrun
      obtain ⟨t₁, hcommit, hrun⟩ := bind_eq_ok.mp hrun
      obtain ⟨⟨e₁, m₁, io₁⟩, hwrite₁, hrun⟩ := bind_eq_ok.mp hrun
      obtain ⟨failed, hcommit₁, hrun⟩ := bind_eq_ok.mp hrun
      obtain ⟨⟨e₂, m₂, io₂⟩, hwrite₂, hrun⟩ := bind_eq_ok.mp hrun
      cases hrun
      have hstart : Run TableFile.KeepsClear .columnar ⟨t, t.beginManifest, [], [(t.committed, [])]⟩ :=
        .create plainSchema (fun _ => 0) (fun _ => []) hcreate
      have hfirst := hstart.step (.edit 1 htxn.ge (.segment (oneRow 7) hclear hwrite)
        (TableFile.intact_of_check hintact))
      have hbitmap := (hfirst.step (.commit hcommit)).step (.edit 2 htxn₁.ge (.deletes 0 _ {0} hentry hclear₁ hwrite₁)
        (TableFile.intact_of_check hintact₁))
      have hagain := ((hbitmap.step (.lastSyncFails hcommit₁)).step (.restart _)).step
        (.edit 2 htxn₁.ge (.segment (oneRow 8) hclear₂ hwrite₂) (TableFile.intact_of_check hintact₂))
      refine ⟨_, hagain, hnewer, ?_, retry_opens_intact hagain⟩
      obtain ⟨-, -, halloc, -⟩ := writeAllocated_ok isPowerOfTwo_segmentAlign hwrite₂
      rw [halloc] at hlength
      change (m₂.segments ++ [_]).length = 2
      rw [List.length_append, hlength]
      rfl

end Concrete

end Session

end LocalTables
