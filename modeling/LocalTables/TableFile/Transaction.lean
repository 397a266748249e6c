import LocalTables.TableFile.Crash
import LocalTables.TableFile.Ledger

/-! A whole commit, from the manifest it starts with to the page it ends with. Between commits a handle
is `Sound`: its space is accounted for and its file opens to the commit it knows. Preparing and making
a commit keeps the handle sound and writes on nothing that an older commit somebody may still read
references. -/

namespace LocalTables

variable {τ ν : Type} {M : Media τ ν}

/-- Edits made one after another. -/
abbrev Edits (allowed : Manifest → Nat → Nat → Prop) (minActiveTxn : Nat) : Pending M → Pending M → Prop :=
  Relation.ReflTransGen (Edit allowed minActiveTxn)

/-- Any allocation at all. -/
def anyAllocation : Manifest → Nat → Nat → Prop := fun _ _ _ => True

/-- An extent that no allocation will reach: some commit no older than the oldest reader references it. -/
structure Safe (minActiveTxn : Nat) (m : Manifest) (e : Extent) : Prop where
  low : dataStart ≤ e.offset
  protects : ∃ txn, minActiveTxn ≤ txn + 1 ∧ txn < m.txnId ∧ Protects m txn e

/-- The fixed regions, and what is safe. -/
def Guarded (minActiveTxn : Nat) (m : Manifest) (e : Extent) : Prop :=
  e.stop ≤ dataStart ∨ Safe minActiveTxn m e

namespace Safe

variable {minActiveTxn : Nat} {m : Manifest} {e : Extent}

theorem inFile (h : Safe minActiveTxn m e) : e.stop ≤ m.fileLen := by
  obtain ⟨txn, -, -, hprotects⟩ := h.protects
  exact hprotects.inFile

theorem allocate_apart (h : Safe minActiveTxn m e) {len align : Nat} (hlen : 0 < len)
    (halign : align.isPowerOfTwo) : (allocate m len align minActiveTxn).1.Apart e := by
  obtain ⟨txn, hmin, -, hprotects⟩ := h.protects
  exact hprotects.allocate_apart hlen halign hmin

theorem edit {allowed : Manifest → Nat → Nat → Prop} {p p' : Pending M} (h : Safe minActiveTxn p.manifest e)
    (hedit : Edit allowed minActiveTxn p p') : Safe minActiveTxn p'.manifest e := by
  obtain ⟨txn, hmin, htxn, hprotects⟩ := h.protects
  exact ⟨h.low, txn, hmin, by rw [hedit.fixed.1]; exact htxn, hedit.protects htxn hprotects⟩

end Safe

namespace Ledger

variable {allowed : Manifest → Nat → Nat → Prop} {minActiveTxn : Nat} {t t' : TableFile M} {m : Manifest}
  {float : Extent} {p p' : Pending M}

/-- What the handle keeps, and what the commit being prepared references, is safe. -/
theorem safe (h : Ledger t m float) (hmin : minActiveTxn ≤ t.committed.metaPage.txnId) {e : Extent}
    (he : e ∈ t.space ++ m.refs) (hpos : 0 < e.len) : Safe minActiveTxn m e where
  low := (h.accounted.bounds (.inl he) hpos).1
  protects := ⟨t.committed.metaPage.txnId, by omega, by rw [h.txn]; exact Nat.lt_succ_self _,
    .of_accounted h.accounted he hpos _⟩

theorem guarded_apart (h : Ledger t m float) {e : Extent} (he : Guarded minActiveTxn m e) {len align : Nat}
    (hlen : 0 < len) (halign : align.isPowerOfTwo) : (allocate m len align minActiveTxn).1.Apart e := by
  rcases he with hlow | hsafe
  · exact h.accounted.allocate_apart minActiveTxn hlen halign (.inl hlow)
  · exact hsafe.allocate_apart hlen halign

theorem guarded_inFile (h : Ledger t m float) {e : Extent} (he : Guarded minActiveTxn m e) : e.stop ≤ t.io.len := by
  rcases he with hlow | hsafe
  · exact hlow.trans (h.accounted.start.trans h.inFile)
  · exact hsafe.inFile.trans h.inFile

/-- Edits keep the ledger, and what they write spares everything guarded. -/
theorem edits (h : Ledger { t with io := p.io } p.manifest float) (hedits : Edits allowed minActiveTxn p p')
    (hfloat : float.len = 0 ∨ ∀ m len align, align.isPowerOfTwo → 0 < len → allowed m len align →
      (allocate m len align minActiveTxn).1.Apart float) :
    Ledger { t with io := p'.io } p'.manifest float ∧ p'.manifest.schema = p.manifest.schema ∧
      p.io.len ≤ p'.io.len ∧ ∃ ops, FileIo.Issued p.io ops p'.io ∧ ∀ e, Guarded minActiveTxn p.manifest e →
        Guarded minActiveTxn p'.manifest e ∧ ∀ op ∈ ops, M.Spares e op := by
  induction hedits with
  | refl => exact ⟨h, rfl, le_rfl, [], .refl _, fun e he => ⟨he, by simp⟩⟩
  | @tail q q' _ hedit ih =>
      obtain ⟨hledger, hschema, hlen, ops, hissued, hspares⟩ := ih
      obtain ⟨more, hmore, -, hmoreSpares⟩ := hedit.issued
      refine ⟨hledger.edit hedit (hfloat.imp id fun hfloat => hfloat q.manifest), hedit.fixed.2.trans hschema,
        hlen.trans (hedit.inFile hledger.inFile).2, ops ++ more, hissued.trans hmore, fun e he => ?_⟩
      obtain ⟨hguarded, hops⟩ := hspares e he
      refine ⟨hguarded.imp id fun hsafe => hsafe.edit hedit, fun op hop => ?_⟩
      rcases List.mem_append.mp hop with hop | hop
      · exact hops op hop
      · exact hmoreSpares e (hledger.guarded_inFile hguarded)
          (fun len align halign hlen _ => hledger.guarded_apart hguarded hlen halign) op hop

end Ledger

/-- Between commits: the space is accounted for, the file opens to the commit the handle knows, and the
slot it will overwrite holds the manifest it will free. -/
structure TableFile.Sound (kind : TableKind) (t : TableFile M) : Prop where
  settled : Settled t
  recovers : Recovers t.io.file kind t.header t.committed
  nextSlot : t.nextSlot = t.committed.slot.other
  otherPage : ∀ page, readMeta t.io.file t.nextSlot = some page → page.manifest = t.nextSlotManifest

namespace TableFile

variable {kind : TableKind} {t t' : TableFile M} {m : Manifest} {minActiveTxn : Nat}

theorem Fresh.sound {seed : MetaPage} (h : t.Fresh kind seed) : t.Sound kind where
  settled := h.settled
  recovers := h.recovers
  nextSlot := by rw [h.slot, h.nextSlot]; rfl
  otherPage page hpage := by
    rw [h.nextSlot, h.seedPage] at hpage
    rw [← Option.some.inj hpage, h.nextSlotManifest]

/-- What the commit in force needs and references is safe when the next one begins. -/
theorem Sound.safe (h : t.Sound kind) (hmin : minActiveTxn ≤ t.committed.metaPage.txnId) {e : Extent}
    (he : e ∈ t.space ++ t.committed.manifest.refs) (hpos : 0 < e.len) : Safe minActiveTxn t.beginManifest e :=
  h.settled.ledger.safe hmin he hpos

theorem Sound.needs_guarded (h : t.Sound kind) (hmin : minActiveTxn ≤ t.committed.metaPage.txnId) {e : Extent}
    (he : e ∈ t.committed.needs t.header ∨ e = ⟨dataStart, 0⟩) : Guarded minActiveTxn t.beginManifest e :=
  (needs_in_use h.settled.spacePos e he).imp id fun ⟨hspace, hpos⟩ =>
    h.safe hmin (List.mem_append_left _ hspace) hpos

end TableFile

/-- A commit that has been prepared on a sound handle, up to the commit itself. -/
structure Prepared (minActiveTxn : Nat) (t : TableFile M) (float : Extent) (p : Pending M) : Prop where
  ledger : Ledger { t with io := p.io } p.manifest float
  grows : t.io.len ≤ p.io.len
  issued : ∃ ops, FileIo.Issued t.io ops p.io ∧ ∀ e, Guarded minActiveTxn t.beginManifest e →
    Guarded minActiveTxn p.manifest e ∧ ∀ op ∈ ops, M.Spares e op
  protects : ∀ txn e, txn ≤ t.committed.metaPage.txnId → Protects t.committed.manifest txn e →
    Protects p.manifest txn e
  schema : schemaExtent t.header p.manifest = schemaExtent t.header t.committed.manifest ∨
    schemaExtent t.header p.manifest = float ∧ 0 < float.len ∧ ∃ schema, readSchema p.io.file float = .ok schema

namespace Prepared

variable {kind : TableKind} {t t' : TableFile M} {allowed : Manifest → Nat → Nat → Prop} {minActiveTxn : Nat}
  {float : Extent} {p p' : Pending M}

theorem begin (h : t.Sound kind) : Prepared minActiveTxn t Extent.empty ⟨t.io, t.beginManifest⟩ :=
  ⟨h.settled.ledger, le_rfl, ⟨[], .refl _, fun _ he => ⟨he, by simp⟩⟩, fun _ _ _ h => h.congr rfl rfl, .inl rfl⟩

/-- A schema blob goes to the end of the file, past everything accounted for. -/
theorem beginSchema (h : t.Sound kind) {schema : Schema τ} {e : Extent} {t₁ : TableFile M}
    (hwrite : t.writeSchema schema = .ok (e, t₁)) :
    t₁ = { t with io := t₁.io } ∧ e.offset = t.io.len ∧ 0 < e.len ∧
      Prepared minActiveTxn t e ⟨t₁.io, { t.beginManifest with schema := e }⟩ := by
  obtain ⟨⟨e', io⟩, happend, heq⟩ := bind_eq_ok.mp hwrite
  obtain ⟨rfl, rfl⟩ := Prod.mk.inj (Except.ok.inj heq)
  obtain ⟨n, hn, rfl, rfl⟩ := FileIo.append_ok happend
  have hpos : 0 < n := M.size_pos _ n hn
  have hlen : (t.io.request (.write t.io.len (.schema schema))).len = t.io.len + n := by
    rw [FileIo.len_write t.io hn]
    omega
  have hledger := (h.settled.ledger.withIo (hlen.symm ▸ Nat.le_add_right _ _ :
    t.io.len ≤ (t.io.request (.write t.io.len (.schema schema))).len)).refloat
      (.inr ⟨h.settled.inFile, hlen.ge⟩ : (⟨t.io.len, n⟩ : Extent).len = 0 ∨ _)
  have hrestamped : Ledger { t with io := t.io.request (.write t.io.len (.schema schema)) }
      { t.beginManifest with schema := ⟨t.io.len, n⟩ } ⟨t.io.len, n⟩ :=
    ⟨hledger.txn, hledger.accounted.same rfl rfl fun _ => rfl, hledger.floatOnce, hledger.floatAt, hledger.inFile,
      hledger.refsPos, hledger.spacePos, fun e he => (hledger.current e he).congr rfl rfl⟩
  refine ⟨rfl, rfl, hpos, ⟨hrestamped, hlen.symm ▸ Nat.le_add_right _ _,
    ⟨_, FileIo.issued_request _ _, fun e he => ⟨?_, ?_⟩⟩, fun _ _ _ h => h.congr rfl rfl, .inr ?_⟩⟩
  · exact he.imp id fun hsafe => ⟨hsafe.low, hsafe.protects.imp fun _ h => ⟨h.1, h.2.1, h.2.2.congr rfl rfl⟩⟩
  · intro op hop
    rw [List.mem_singleton.mp hop]
    exact ⟨n, hn, .inr (h.settled.ledger.guarded_inFile he)⟩
  · refine ⟨by simp [schemaExtent, Extent.isEmpty, hpos.ne'], hpos, schema, ?_⟩
    exact readSchema_of_read (TableFile.request_write_self t.io ⟨t.io.len, n⟩ hn)

/-- The float reads back as long as every allocation keeps off it. -/
theorem float_read (h : Ledger { t with io := p.io } p.manifest float) (hpos : 0 < float.len)
    (hedits : Edits allowed minActiveTxn p p')
    (hfloat : ∀ m len align, align.isPowerOfTwo → 0 < len → allowed m len align →
      (allocate m len align minActiveTxn).1.Apart float) (k : Kind) :
    M.read p'.io.file float k = M.read p.io.file float k := by
  induction hedits with
  | refl => rfl
  | @tail q q' hbefore hedit ih =>
      obtain ⟨hledger, -⟩ := h.edits hbefore (.inr hfloat)
      obtain ⟨ops, hissued, -, hspares⟩ := hedit.issued
      have hin : float.stop ≤ q.io.len := (hledger.floatAt.resolve_left hpos.ne').2
      rw [← ih, hissued.2]
      exact (Media.applyAll_spared (hspares float hin fun len align halign hlen hallowed =>
        hfloat q.manifest len align halign hlen hallowed) hin).2 k

theorem edits (h : Prepared minActiveTxn t float p) (hedits : Edits allowed minActiveTxn p p')
    (hfloat : float.len = 0 ∨ ∀ m len align, align.isPowerOfTwo → 0 < len → allowed m len align →
      (allocate m len align minActiveTxn).1.Apart float) : Prepared minActiveTxn t float p' := by
  obtain ⟨hledger, hschema, hlen, more, hmore, hmoreSpares⟩ := h.ledger.edits hedits hfloat
  obtain ⟨ops, hissued, hspares⟩ := h.issued
  have hsame : schemaExtent t.header p'.manifest = schemaExtent t.header p.manifest := by
    rw [schemaExtent, schemaExtent, hschema]
  refine ⟨hledger, h.grows.trans hlen, ⟨ops ++ more, hissued.trans hmore, fun e he => ?_⟩, fun txn e htxn hprotects => ?_, ?_⟩
  · obtain ⟨hguarded, hops⟩ := hspares e he
    obtain ⟨hguarded', hmoreOps⟩ := hmoreSpares e hguarded
    refine ⟨hguarded', fun op hop => ?_⟩
    rcases List.mem_append.mp hop with hop | hop
    · exact hops op hop
    · exact hmoreOps op hop
  · have hnow := h.protects txn e htxn hprotects
    have hbelow : txn < p.manifest.txnId := by rw [h.ledger.txn]; exact Nat.lt_succ_of_le htxn
    clear hschema hsame hledger hmore hmoreSpares hlen
    induction hedits with
    | refl => exact hnow
    | @tail q q' hbefore hedit ih =>
        obtain ⟨hledger, -⟩ := h.ledger.edits hbefore hfloat
        exact hedit.protects (by rw [hledger.txn]; exact Nat.lt_succ_of_le htxn) ih
  · rw [hsame]
    refine h.schema.imp id ?_
    rintro ⟨hat, hpos, schema, hread⟩
    refine ⟨hat, hpos, schema, ?_⟩
    rw [← hread]
    exact readSchema_congr (float_read h.ledger hpos hedits (hfloat.resolve_left hpos.ne'))

/-- What is guarded when the commit begins reads the same once it is prepared. -/
theorem reads (h : Prepared minActiveTxn t float p) (hsound : t.Sound kind) {e : Extent}
    (he : Guarded minActiveTxn t.beginManifest e) (k : Kind) : M.read p.io.file e k = M.read t.io.file e k := by
  obtain ⟨ops, hissued, hspares⟩ := h.issued
  rw [hissued.2]
  exact (Media.applyAll_spared (hspares e he).2 (hsound.settled.ledger.guarded_inFile he)).2 k

end Prepared

namespace TableFile

variable {kind : TableKind} {t t' : TableFile M} {minActiveTxn : Nat} {float : Extent} {p : Pending M}
  {left : M.File}

/-- Another file under the same handle, in which everything the handle keeps reads as before. -/
theorem Sound.withIo (h : t.Sound kind) (io : FileIo M) (hlen : t.io.len ≤ io.len)
    (hreads : ∀ e : Extent, e.stop ≤ dataStart ∨ e ∈ t.space ∧ 0 < e.len →
      ∀ k, M.read io.file e k = M.read t.io.file e k) : Sound kind { t with io := io } := by
  have hmeta : ∀ slot : MetaSlot, readMeta io.file slot = readMeta t.io.file slot := fun slot =>
    readMeta_congr (hreads _ (.inl slot.page_stop_le))
  refine ⟨h.settled.withIo hlen, ⟨?_, fun page hpage => h.recovers.older page (hmeta _ ▸ hpage)⟩, h.nextSlot,
    fun page hpage => h.otherPage page (hmeta _ ▸ hpage)⟩
  exact h.recovers.toHolds.congr (fun e he => ⟨(h.recovers.needs_in e he).trans hlen,
    hreads e (needs_in_use h.settled.spacePos e (.inl he))⟩) (h.recovers.start.trans hlen)

/-- The file of a sound handle opens to a sound handle on the same commit. -/
theorem Sound.opens (h : t.Sound kind) :
    ∃ t', openFile t.io.file kind = .ok t' ∧ t'.Sound kind ∧ t'.io = ⟨t.io.file, []⟩ ∧ t'.header = t.header ∧
      t'.committed = t.committed ∧ readSchema t.io.file (schemaExtent t.header t.committed.manifest) = .ok t'.schema := by
  obtain ⟨t', hopen, hio, hheader, hcommitted, hnext, hloser, hschema⟩ := h.recovers.openFile
  refine ⟨t', hopen, ?_, hio, hheader, hcommitted, hschema⟩
  rw [← h.nextSlot] at hnext hloser
  obtain ⟨io, schema, header, nextSlot, nextSlotManifest, committed⟩ := t'
  dsimp only at hio hheader hcommitted hnext hloser
  subst hio hheader hcommitted hnext hloser
  have hcover : ∀ byte, Extent.coverAt [((readMeta t.io.file t.nextSlot).map (·.manifest)).getD Extent.empty] byte ≤
      Extent.coverAt [t.nextSlotManifest] byte := by
    intro byte
    cases hpage : readMeta t.io.file t.nextSlot with
    | none =>
        rw [Option.map_none, Option.getD_none, Extent.coverAt_empty]
        exact Nat.zero_le _
    | some page =>
        rw [Option.map_some, Option.getD_some, h.otherPage page hpage]
  refine ⟨⟨h.settled.accounted.weaken fun byte => ?_, h.settled.inFile, h.settled.refsPos, h.settled.spacePos⟩,
    h.recovers, h.nextSlot, fun page hpage => ?_⟩
  · have := hcover byte
    simp only [TableFile.space, Extent.coverAt_append, Extent.coverAt_cons, Extent.coverAt_nil] at this ⊢
    omega
  · change readMeta t.io.file t.nextSlot = some page at hpage
    rw [hpage]
    rfl

end TableFile

namespace Prepared

variable {kind : TableKind} {t t' : TableFile M} {minActiveTxn : Nat} {float : Extent} {p : Pending M}
  {left : M.File}

/-- While a commit is prepared the handle stays sound on the file as it is written. -/
theorem sound (h : Prepared minActiveTxn t float p) (hsound : t.Sound kind)
    (hmin : minActiveTxn ≤ t.committed.metaPage.txnId) : TableFile.Sound kind { t with io := p.io } :=
  hsound.withIo p.io h.grows fun _ he => h.reads hsound
    (he.imp id fun ⟨hspace, hpos⟩ => hsound.safe hmin (List.mem_append_left _ hspace) hpos)

theorem schemaWritten (h : Prepared minActiveTxn t float p) (hsound : t.Sound kind)
    (hmin : minActiveTxn ≤ t.committed.metaPage.txnId) : TableFile.SchemaWritten { t with io := p.io } p.manifest := by
  rcases h.schema with hsame | ⟨hat, hpos, schema, hread⟩
  · have hholds := (h.sound hsound hmin).recovers.toHolds
    unfold TableFile.SchemaWritten
    dsimp only
    rw [hsame]
    exact ⟨hholds.schema, hholds.schemaAt⟩
  · unfold TableFile.SchemaWritten
    dsimp only
    rw [hat]
    exact ⟨⟨schema, hread⟩, h.ledger.floatAt.resolve_left hpos.ne'⟩

theorem start (h : Prepared minActiveTxn t float p) : dataStart ≤ p.io.len :=
  h.ledger.accounted.start.trans h.ledger.inFile

/-- Making the commit leaves a sound handle on it. -/
theorem commit (h : Prepared minActiveTxn t float p) (hsound : t.Sound kind)
    (hmin : minActiveTxn ≤ t.committed.metaPage.txnId)
    (hcommit : TableFile.commit { t with io := p.io } p.manifest = .ok t') : t'.Sound kind := by
  have hnow := h.sound hsound hmin
  obtain ⟨hnew, hold⟩ := TableFile.commit_holds hnow.recovers.toHolds hnow.nextSlot (h.schemaWritten hsound hmin) hcommit
  obtain ⟨e, -, -, -, -, -, -, -, htxn, -, hslot, hnext, hloser, -⟩ := TableFile.commit_manifest h.start hcommit
  refine ⟨h.ledger.commit h.start hcommit (h.schema.imp id fun hfloat => ⟨hfloat.1, hfloat.2.1⟩),
    TableFile.commit_recovers hnow.recovers.toHolds hnow.nextSlot (h.schemaWritten hsound hmin) hcommit, ?_, ?_⟩
  · rw [hnext, hslot]
  · intro page hpage
    dsimp only at hnext hloser hslot
    rw [hnext, hsound.nextSlot, MetaSlot.other_other, hold.page] at hpage
    rw [← Option.some.inj hpage, hloser]

/-- The commit before is still whole in the other slot. -/
theorem commit_old (h : Prepared minActiveTxn t float p) (hsound : t.Sound kind)
    (hmin : minActiveTxn ≤ t.committed.metaPage.txnId)
    (hcommit : TableFile.commit { t with io := p.io } p.manifest = .ok t') :
    Holds t'.io.file kind t.header t.committed ∧ t'.nextSlot = t.committed.slot ∧
      t'.committed.metaPage.txnId = t.committed.metaPage.txnId + 1 := by
  have hnow := h.sound hsound hmin
  obtain ⟨-, hold⟩ := TableFile.commit_holds hnow.recovers.toHolds hnow.nextSlot (h.schemaWritten hsound hmin) hcommit
  obtain ⟨e, -, -, -, -, -, -, -, htxn, -, -, hnext, -, -⟩ := TableFile.commit_manifest h.start hcommit
  refine ⟨hold, ?_, htxn⟩
  rw [hnext, hsound.nextSlot, MetaSlot.other_other]

/-- What a prepared commit writes from beginning to end spares everything guarded outside the slot. -/
theorem commit_spares (h : Prepared minActiveTxn t float p)
    (hcommit : TableFile.commit { t with io := p.io } p.manifest = .ok t') :
    ∃ ops, FileIo.Issued t.io ops t'.io ∧ ∀ e, Guarded minActiveTxn t.beginManifest e → t.nextSlot.page.Apart e →
      ∀ op ∈ ops, M.Spares e op := by
  obtain ⟨ops, hissued, hspares⟩ := h.issued
  refine ⟨_, hissued.trans (TableFile.issued_commit hcommit), fun e he hapart op hop => ?_⟩
  obtain ⟨e', manifest, io, hwrite, -, -⟩ := TableFile.commit_ok hcommit
  have hin := h.ledger.guarded_inFile (hspares e he).1
  rw [TableFile.commitRequests, List.mem_append, List.mem_append, List.mem_cons] at hop
  rcases hop with hop | hop | rfl | hop
  · exact (hspares e he).2 op hop
  · exact TableFile.spares_manifestRequests hwrite hin op hop
  · trivial
  · exact TableFile.spares_metaRequests (t := { t with io := p.io }) hapart op hop

theorem commit_protects (h : Prepared minActiveTxn t float p)
    (hcommit : TableFile.commit { t with io := p.io } p.manifest = .ok t') {txn : Nat} {e : Extent}
    (htxn : txn ≤ t.committed.metaPage.txnId) (hprotects : Protects t.committed.manifest txn e) :
    Protects t'.committed.manifest txn e :=
  h.ledger.commit_protects h.start hcommit (by rw [h.ledger.txn]; exact Nat.lt_succ_of_le htxn)
    (h.protects txn e htxn hprotects)

/-- A crash inside the commit leaves a file for the commit in force, or for the new one. -/
theorem cut (h : Prepared minActiveTxn t float p) (hsound : t.Sound kind)
    (hmin : minActiveTxn ≤ t.committed.metaPage.txnId)
    (hcut : M.Cut p.io.file (TableFile.commitRequests { t with io := p.io } p.manifest) left)
    (htorn : TableFile.TornFails { t with io := p.io } p.manifest left) :
    TableFile.Sound kind { t with io := ⟨left, p.io.log⟩ } ∨
      ∃ t', TableFile.commit { t with io := p.io } p.manifest = .ok t' ∧
        TableFile.Sound kind { t' with io := ⟨left, p.io.log⟩ } := by
  have hnow := h.sound hsound hmin
  have hwritten := h.schemaWritten hsound hmin
  have hold := (TableFile.cut_commitRequests hnow.recovers.toHolds hnow.nextSlot hwritten hcut htorn).1
  have hlen : p.io.len ≤ M.len left := TableFile.len_commitCut (t := { t with io := p.io }) h.start hcut
  have hsame : (∀ page, readMeta left t.nextSlot = some page → readMeta p.io.file t.nextSlot = some page) →
      TableFile.Sound kind { t with io := ⟨left, p.io.log⟩ } := by
    intro hpages
    refine ⟨hsound.settled.withIo (h.grows.trans hlen), ⟨hold, fun page hpage => ?_⟩, hsound.nextSlot,
      fun page hpage => hnow.otherPage page (hpages page hpage)⟩
    have hslot := hsound.nextSlot
    dsimp only at hpage
    rw [← hslot] at hpage
    exact hnow.recovers.older page (by dsimp only; rw [← hslot]; exact hpages page hpage)
  cases hpage : readMeta left t.nextSlot with
  | none => exact .inl (hsame fun page hother => nomatch hpage.symm.trans hother)
  | some page =>
      rcases TableFile.torn_page hnow.recovers.toHolds hnow.nextSlot hwritten hcut htorn hpage with
        holdPage | ⟨c, t', hc, hcpage, hholds, hcommit, hcommitted⟩
      · refine .inl (hsame fun other hother => ?_)
        rw [← Option.some.inj (hpage.symm.trans hother)]
        exact holdPage
      · refine .inr ⟨t', hcommit, ?_⟩
        have hnew := h.commit hsound hmin hcommit
        obtain ⟨e, -, -, -, -, hheader, -, hat, htxn, -, hslot, hnext, hloser, hmanifest⟩ :=
          TableFile.commit_manifest h.start hcommit
        have hback : readMeta left t'.nextSlot = some t.committed.metaPage := by
          have := hold.page
          rw [hnext, hsound.nextSlot, MetaSlot.other_other]
          exact this
        subst hcommitted
        refine ⟨⟨hnew.settled.accounted, ?_, hnew.settled.refsPos, hnew.settled.spacePos⟩,
          ⟨by rw [show t'.header = t.header from hheader]; exact hholds, fun other hother => ?_⟩, hnew.nextSlot,
          fun other hother => ?_⟩
        · change t'.committed.manifest.fileLen ≤ M.len left
          have := hholds.manifestAt.2
          rw [hmanifest, ← hat]
          exact this
        · dsimp only at hother
          rw [← hnew.nextSlot, hback] at hother
          rw [← Option.some.inj hother, htxn]
          exact Nat.lt_succ_self _
        · dsimp only at hother
          rw [hback] at hother
          rw [← Option.some.inj hother]
          exact hloser.symm

end Prepared

end LocalTables
