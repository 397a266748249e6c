import LocalTables.TableFile.Transaction

/-! The room segments stand in, schema blobs left out. A schema change that rewrites segments appends its schema blob
where the allocator may put a segment next, so the blobs are not accounted for across such changes; manifests,
segments and delete vectors are, whatever is committed. -/

namespace LocalTables

variable {τ ν : Type} {M : Media τ ν}

/-- The manifests of both slots. -/
def TableFile.manifests (t : TableFile M) : List Extent := [t.committed.metaPage.manifest, t.nextSlotManifest]

/-- The accounting of a handle between commits, without its schema blobs. -/
structure Roomy (t : TableFile M) : Prop where
  accounted : Accounted (t.manifests ++ t.committed.manifest.refs) t.committed.manifest
  inFile : t.committed.manifest.fileLen ≤ t.io.len
  refsPos : ∀ e ∈ t.committed.manifest.refs, 0 < e.len

theorem Settled.roomy {t : TableFile M} (h : Settled t) : Roomy t := by
  refine ⟨h.accounted.weaken fun byte => ?_, h.inFile, h.refsPos⟩
  simp only [TableFile.space, TableFile.manifests, Extent.coverAt_append]
  omega

/-- A commit that has been prepared on such a handle. -/
structure Drafted (minActiveTxn : Nat) (t : TableFile M) (p : Pending M) : Prop where
  txn : p.manifest.txnId = t.committed.metaPage.txnId + 1
  accounted : Accounted (t.manifests ++ p.manifest.refs) p.manifest
  inFile : p.manifest.fileLen ≤ p.io.len
  refsPos : ∀ e ∈ p.manifest.refs, 0 < e.len
  issued : ∃ ops, FileIo.Issued t.io ops p.io ∧ ∀ e, Guarded minActiveTxn t.beginManifest e →
    Guarded minActiveTxn p.manifest e ∧ ∀ op ∈ ops, M.Spares e op
  protects : ∀ txn e, txn ≤ t.committed.metaPage.txnId → Protects t.committed.manifest txn e →
    Protects p.manifest txn e

namespace Drafted

variable {t t' : TableFile M} {allowed : Manifest → Nat → Nat → Prop} {minActiveTxn : Nat} {p p' : Pending M}

theorem begin (h : Roomy t) : Drafted minActiveTxn t ⟨t.io, t.beginManifest⟩ :=
  ⟨rfl, h.accounted.same rfl rfl fun _ => rfl, h.inFile, h.refsPos, ⟨[], .refl _, fun _ he => ⟨he, by simp⟩⟩,
    fun _ _ _ h => h.congr rfl rfl⟩

theorem guarded_inFile (h : Drafted minActiveTxn t p) {e : Extent} (he : Guarded minActiveTxn p.manifest e) :
    e.stop ≤ p.io.len := by
  rcases he with hlow | hsafe
  · exact hlow.trans (h.accounted.start.trans h.inFile)
  · exact hsafe.inFile.trans h.inFile

theorem guarded_apart (h : Drafted minActiveTxn t p) {e : Extent} (he : Guarded minActiveTxn p.manifest e)
    {len align : Nat} (hlen : 0 < len) (halign : align.isPowerOfTwo) :
    (allocate p.manifest len align minActiveTxn).1.Apart e := by
  rcases he with hlow | hsafe
  · exact h.accounted.allocate_apart minActiveTxn hlen halign (.inl hlow)
  · exact hsafe.allocate_apart hlen halign

/-- A schema blob goes to the end of the file, past everything accounted for. -/
theorem beginSchema (minActiveTxn : Nat) (h : Roomy t) {schema : Schema τ} {e : Extent} {t₁ : TableFile M}
    (hwrite : t.writeSchema schema = .ok (e, t₁)) :
    t₁ = { t with io := t₁.io } ∧ Drafted minActiveTxn t ⟨t₁.io, { t.beginManifest with schema := e }⟩ := by
  obtain ⟨⟨e', io⟩, happend, heq⟩ := bind_eq_ok.mp hwrite
  obtain ⟨rfl, rfl⟩ := Prod.mk.inj (Except.ok.inj heq)
  obtain ⟨n, hn, rfl, rfl⟩ := FileIo.append_ok happend
  have hlen : (t.io.request (.write t.io.len (.schema schema))).len = t.io.len + n := by
    rw [FileIo.len_write t.io hn]
    omega
  refine ⟨rfl, rfl, h.accounted.same rfl rfl fun _ => rfl, ?_, h.refsPos, ⟨_, FileIo.issued_request _ _, fun e he => ⟨?_, ?_⟩⟩,
    fun _ _ _ h => h.congr rfl rfl⟩
  · exact h.inFile.trans (hlen.symm ▸ Nat.le_add_right _ _)
  · exact he.imp id fun hsafe => ⟨hsafe.low, hsafe.protects.imp fun _ h => ⟨h.1, h.2.1, h.2.2.congr rfl rfl⟩⟩
  · intro op hop
    rw [List.mem_singleton.mp hop]
    exact ⟨n, hn, .inr ((Drafted.begin h).guarded_inFile he)⟩

theorem edit (h : Drafted minActiveTxn t p) (hedit : Edit allowed minActiveTxn p p') : Drafted minActiveTxn t p' := by
  obtain ⟨ops, hissued, hspares⟩ := h.issued
  obtain ⟨more, hmore, -, hmoreSpares⟩ := hedit.issued
  refine ⟨hedit.fixed.1.trans h.txn, hedit.accounted h.accounted, (hedit.inFile h.inFile).1, hedit.refsPos h.refsPos,
    ⟨ops ++ more, hissued.trans hmore, fun e he => ?_⟩, fun txn e htxn hprotects => ?_⟩
  · obtain ⟨hguarded, hops⟩ := hspares e he
    refine ⟨hguarded.imp id fun hsafe => hsafe.edit hedit, fun op hop => ?_⟩
    rcases List.mem_append.mp hop with hop | hop
    · exact hops op hop
    · exact hmoreSpares e (h.guarded_inFile hguarded)
        (fun len align halign hlen _ => h.guarded_apart hguarded hlen halign) op hop
  · refine hedit.protects ?_ (h.protects txn e htxn hprotects)
    rw [h.txn]
    exact Nat.lt_succ_of_le htxn

theorem edits (h : Drafted minActiveTxn t p) (hedits : Edits allowed minActiveTxn p p') : Drafted minActiveTxn t p' := by
  induction hedits with
  | refl => exact h
  | tail _ hedit ih => exact ih.edit hedit

/-- What the commit references is in use, so later allocations keep off it. -/
theorem refs_guarded (h : Drafted minActiveTxn t p) (hmin : minActiveTxn ≤ t.committed.metaPage.txnId) {e : Extent}
    (he : e ∈ p.manifest.refs) : Guarded minActiveTxn p.manifest e := by
  have hused := List.mem_append_right t.manifests he
  refine .inr ⟨(h.accounted.bounds (.inl hused) (h.refsPos e he)).1, t.committed.metaPage.txnId, by omega, ?_,
    .of_accounted h.accounted hused (h.refsPos e he) _⟩
  rw [h.txn]
  exact Nat.lt_succ_self _

theorem start (h : Drafted minActiveTxn t p) : dataStart ≤ p.io.len := h.accounted.start.trans h.inFile

/-- Committing leaves a handle whose room is accounted for. -/
theorem commit (h : Drafted minActiveTxn t p)
    (hcommit : TableFile.commit { t with io := p.io } p.manifest = .ok t') : Roomy t' := by
  obtain ⟨e, hpos, hio, hlen, hlen', -, -, hat, -, -, -, -, hnext, hmanifest⟩ :=
    TableFile.commit_manifest h.start hcommit
  dsimp only at hnext hio
  have hrefs : t'.committed.manifest.refs = p.manifest.refs := by
    refine Manifest.refs_congr ?_
    rw [hmanifest]
    exact Manifest.segments_free _
  have hfreed : ∀ byte, Extent.coverAt t'.committed.manifest.freed byte =
      Extent.coverAt p.manifest.freed byte + Extent.coverAt [t.nextSlotManifest] byte := by
    intro byte
    rw [hmanifest]
    exact coverAt_free _ _ byte
  have hcover : ∀ byte, Extent.coverAt (t'.manifests ++ t'.committed.manifest.refs) byte +
      Extent.coverAt t'.committed.manifest.freed byte = Extent.coverAt [e] byte +
        (Extent.coverAt (t.manifests ++ p.manifest.refs) byte + Extent.coverAt p.manifest.freed byte) := by
    intro byte
    rw [hfreed]
    simp only [TableFile.manifests, hat, hnext, hrefs, Extent.coverAt_append, Extent.coverAt_cons, Extent.coverAt_nil]
    omega
  have hnew : ∀ byte, Extent.coverAt [e] byte = if e.offset ≤ byte ∧ byte < e.stop then 1 else 0 := by
    intro byte
    rw [Extent.coverAt_cons, Extent.coverAt_nil, Nat.add_zero]
  have hfileLen : t'.committed.manifest.fileLen = e.stop := by rw [hmanifest]
  have hstop : e.stop = e.offset + e.len := rfl
  have hstart := h.accounted.start
  refine ⟨⟨fun byte => ?_, fun byte hbyte => ?_, fun byte hbyte => ?_, by omega⟩, by omega, hrefs ▸ h.refsPos⟩
  · have honce := h.accounted.once byte
    have hbelow := h.accounted.below byte
    rw [hcover, hnew]
    split <;> omega
  · rw [hcover, hnew, if_neg (by omega), h.accounted.below byte (by omega)]
  · rw [hcover, hnew, if_neg (by omega), h.accounted.above byte hbyte]

/-- What was protected while the commit was prepared stays protected. -/
theorem commit_protects (h : Drafted minActiveTxn t p)
    (hcommit : TableFile.commit { t with io := p.io } p.manifest = .ok t') {txn : Nat} {e : Extent}
    (htxn : txn ≤ t.committed.metaPage.txnId) (hprotects : Protects t.committed.manifest txn e) :
    Protects t'.committed.manifest txn e := by
  obtain ⟨at', -, -, hlen, -, -, -, -, -, -, -, -, -, hmanifest⟩ := TableFile.commit_manifest h.start hcommit
  have hdrafted := h.protects txn e htxn hprotects
  have hnext : Protects { p.manifest with txnId := t.committed.metaPage.txnId + 1 } txn e := hdrafted.congr rfl rfl
  have hstamped : Protects (TableFile.stamped { t with io := p.io } p.manifest) txn e :=
    hnext.free _ (Nat.lt_succ_of_le htxn)
  have hstop : at'.stop = at'.offset + at'.len := rfl
  rw [hmanifest]
  exact ⟨hprotects.pos, hdrafted.inFile.trans (by dsimp only; omega), hstamped.apart⟩

/-- What a commit writes once it is prepared spares what is guarded outside the slot. -/
theorem commit_issued (h : Drafted minActiveTxn t p)
    (hcommit : TableFile.commit { t with io := p.io } p.manifest = .ok t') :
    ∃ ops, FileIo.Issued p.io ops t'.io ∧ ∀ e, Guarded minActiveTxn p.manifest e → t.nextSlot.page.Apart e →
      ∀ op ∈ ops, M.Spares e op := by
  refine ⟨_, TableFile.issued_commit hcommit, fun e he hapart op hop => ?_⟩
  obtain ⟨e', manifest, io, hwrite, -, -⟩ := TableFile.commit_ok hcommit
  have hin := h.guarded_inFile he
  rw [TableFile.commitRequests, List.mem_append, List.mem_cons] at hop
  rcases hop with hop | rfl | hop
  · exact TableFile.spares_manifestRequests hwrite hin op hop
  · trivial
  · exact TableFile.spares_metaRequests (t := { t with io := p.io }) hapart op hop

/-- From its beginning to its end a commit leaves alone what is guarded when it begins. -/
theorem commit_reads (h : Drafted minActiveTxn t p) (hroomy : Roomy t)
    (hcommit : TableFile.commit { t with io := p.io } p.manifest = .ok t') {e : Extent}
    (he : Guarded minActiveTxn t.beginManifest e) (hapart : t.nextSlot.page.Apart e) (k : Kind) :
    M.read t'.io.file e k = M.read t.io.file e k := by
  obtain ⟨ops, hissued, hspares⟩ := h.issued
  obtain ⟨more, hmore, hmoreSpares⟩ := h.commit_issued hcommit
  have hall : ∀ op ∈ ops ++ more, M.Spares e op := by
    intro op hop
    rcases List.mem_append.mp hop with hop | hop
    · exact (hspares e he).2 op hop
    · exact hmoreSpares e (hspares e he).1 hapart op hop
  rw [(hissued.trans hmore).2]
  exact (Media.applyAll_spared hall ((Drafted.begin hroomy).guarded_inFile he)).2 k

end Drafted

end LocalTables
