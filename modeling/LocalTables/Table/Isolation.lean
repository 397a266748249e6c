import LocalTables.Table.Space

/-! Snapshots and the bytes they read. A freed extent is stamped with the commit that gave it up, and the
allocator hands it out only once the oldest snapshot held is newer than that. So nothing an operation
writes lands on what a held snapshot or either commit on disk references. -/

namespace LocalTables

variable {τ ν : Type} {M : Media τ ν}

namespace Table

variable {env : Env τ ν} {t t' : Table M}

/-- One holding of the writer lock, or a reader that takes or drops a snapshot. -/
inductive Locked [DecidableEq τ] (env : Env τ ν) : Table M → Table M → Prop where
  | insert {t t' : Table M} (batches : List (RecordBatch τ ν)) {rows : Nat}
      (h : t.insertLocked env batches = .ok (rows, t')) : Locked env t t'
  | delete {t t' : Table M} (segmentDeletions : List (SegmentId × List Nat)) (memtableSeqnos : List Nat)
      {deleted : Nat} (h : t.delete env segmentDeletions memtableSeqnos = .ok (deleted, t')) : Locked env t t'
  | update {t t' : Table M} (segmentDeletions : List (SegmentId × List Nat)) (memtableSeqnos : List Nat)
      (replacements : List (RecordBatch τ ν)) {rows : Nat}
      (h : t.updateLocked env segmentDeletions memtableSeqnos replacements = .ok (rows, t')) : Locked env t t'
  | flush {t t' : Table M} {rows : Nat} (h : t.flushLocked env = .ok (rows, t')) : Locked env t t'
  | compact {t t' : Table M} (ids : List SegmentId) {rewrite : Rewrite τ ν} {rows : Nat} (hids : ids.Nodup)
      (hread : t.compactRead env ids = .ok rewrite) (h : t.compactLocked env rewrite = .ok (rows, t')) :
      Locked env t t'
  | deleteSegments {t t' : Table M} (segmentIds : List SegmentId) {deleted : Nat}
      (h : t.deleteSegments segmentIds = .ok (deleted, t')) : Locked env t t'
  | setSchema {t t' : Table M} (before after : TableSchema τ) (s : Snapshot τ ν)
      (h : t.setSchemaLocked env before after false s = .ok t') : Locked env t t'
  | pin (t : Table M) : Locked env t t.pin
  | unpin (t : Table M) (index : Nat) : Locked env t (t.unpin index)

/-- One call of a writer operation that returns, or a reader that takes or drops a snapshot. -/
inductive Op [DecidableEq τ] (env : Env τ ν) : Table M → Table M → Prop where
  | insert {t t' : Table M} (batches : List (RecordBatch τ ν)) {rows : Nat}
      (h : t.insert env batches = .ok (rows, t')) : Op env t t'
  | delete {t t' : Table M} (segmentDeletions : List (SegmentId × List Nat)) (memtableSeqnos : List Nat)
      {deleted : Nat} (h : t.delete env segmentDeletions memtableSeqnos = .ok (deleted, t')) : Op env t t'
  | update {t t' : Table M} (segmentDeletions : List (SegmentId × List Nat)) (memtableSeqnos : List Nat)
      (replacements : List (RecordBatch τ ν)) {rows : Nat}
      (h : t.update env segmentDeletions memtableSeqnos replacements = .ok (rows, t')) : Op env t t'
  | flush {t t' : Table M} {rows : Nat} (h : t.flushLocked env = .ok (rows, t')) : Op env t t'
  | compactSegments {t t' : Table M} (ids : List SegmentId) {rows : Nat} (hids : ids.Nodup)
      (h : t.compactSegments env ids = .ok (rows, t')) : Op env t t'
  | deleteSegments {t t' : Table M} (segmentIds : List SegmentId) {deleted : Nat}
      (h : t.deleteSegments segmentIds = .ok (deleted, t')) : Op env t t'
  | addColumn {t t' : Table M} (field : Field τ) (h : t.addColumn env field = .ok t') : Op env t t'
  | renameColumn {t t' : Table M} (source target : String) (h : t.renameColumn env source target = .ok t') :
      Op env t t'
  | pin (t : Table M) : Op env t t.pin
  | unpin (t : Table M) (index : Nat) : Op env t (t.unpin index)

/-- The runs of a compaction are its segments, cut up. -/
theorem flatten_runs {s : Snapshot τ ν} {ids : List SegmentId} {rs : List (List SegmentId)}
    (h : runs env s ids = .ok rs) : rs.flatten = ids := by
  have hone : ∀ {cut cut' : List (List SegmentId) × Nat} {id : SegmentId}, addToRuns env s cut id = .ok cut' →
      cut'.1.flatten = cut.1.flatten ++ [id] := by
    intro cut cut' id h
    unfold addToRuns at h
    split at h
    · cases h
    · dsimp only at h
      split at h
      · next run hrun =>
          obtain ⟨front, hfront⟩ := List.getLast?_eq_some_iff.mp hrun
          split at h
          · rw [← Except.ok.inj h]
            simp [hfront]
          · rw [← Except.ok.inj h]
            simp
      · rw [← Except.ok.inj h]
        simp
  have hfold : ∀ (ids : List SegmentId) (cut cut' : List (List SegmentId) × Nat),
      ids.foldlM (addToRuns env s) cut = .ok cut' → cut'.1.flatten = cut.1.flatten ++ ids := by
    intro ids
    induction ids with
    | nil =>
        intro cut cut' h
        rw [← Except.ok.inj h, List.append_nil]
    | cons id ids ih =>
        intro cut cut' h
        obtain ⟨mid, hmid, h⟩ := bind_eq_ok.mp h
        rw [ih mid cut' h, hone hmid, List.append_assoc]
        rfl
  obtain ⟨⟨rs', bytes⟩, hruns, h⟩ := bind_eq_ok.mp h
  obtain rfl := Except.ok.inj h
  have := hfold ids ([], 0) (rs', bytes) hruns
  simpa using this

/-- A locked step that leaves the schema alone. -/
def Still [DecidableEq τ] (env : Env τ ν) (t t' : Table M) : Prop := Locked env t t' ∧ t'.schema = t.schema

/-- A call made of steps: the snapshots readers held before it are held after each of them, and no others once it is over. -/
structure Chained (step : Table M → Table M → Prop) (t t' : Table M) : Prop where
  chain : Relation.ReflTransGen (fun a b => step a b ∧ t.pins <:+ b.pins) t t'
  pins : t'.pins = t.pins

namespace Chained

variable {step : Table M → Table M → Prop}

theorem refl (t : Table M) : Chained step t t := ⟨.refl, rfl⟩

theorem single (hstep : step t t') (hpins : t'.pins = t.pins) : Chained step t t' :=
  ⟨.single ⟨hstep, hpins ▸ List.suffix_refl _⟩, hpins⟩

theorem trans (h : Chained step t t₁) (h' : Chained step t₁ t') : Chained step t t' := by
  refine ⟨h.chain.trans ?_, h'.pins.trans h.pins⟩
  rw [← h.pins]
  exact h'.chain

/-- A call under a snapshot of its own, which it drops in the end. -/
theorem pinned (hpin : step t t.pin) (hunpin : step t₁ (t₁.unpin 0)) (h : Chained step t.pin t₁) :
    Chained step t (t₁.unpin 0) := by
  have hpins : (t₁.unpin 0).pins = t.pins := by
    rw [unpin, h.pins]
    rfl
  have hchain : Relation.ReflTransGen (fun a b => step a b ∧ t.pins <:+ b.pins) t.pin t₁ :=
    Relation.ReflTransGen.mono (fun a b hstep => ⟨hstep.1, (List.suffix_cons t.current t.pins).trans hstep.2⟩) _ _ h.chain
  exact ⟨.tail (.head ⟨hpin, List.suffix_cons _ _⟩ hchain) ⟨hunpin, hpins ▸ List.suffix_refl _⟩, hpins⟩

theorem mono {step' : Table M → Table M → Prop} (h : Chained step t t') (himp : ∀ a b, step a b → step' a b) :
    Chained step' t t' := ⟨Relation.ReflTransGen.mono (fun a b hstep => ⟨himp a b hstep.1, hstep.2⟩) _ _ h.chain, h.pins⟩

theorem steps (h : Chained step t t') : Relation.ReflTransGen step t t' :=
  Relation.ReflTransGen.mono (fun _ _ hstep => hstep.1) _ _ h.chain

theorem holds (h : Chained step t t') {s : Snapshot τ ν} (hs : s ∈ t.pins) :
    Relation.ReflTransGen (fun a b => step a b ∧ s ∈ b.pins) t t' :=
  Relation.ReflTransGen.mono (fun _ _ hstep => ⟨hstep.1, hstep.2.mem hs⟩) _ _ h.chain

end Chained

section Ops

variable [DecidableEq τ]

theorem Same.chained (h : t.Same t') (hstep : Locked env t t') : Chained (Still env) t t' := .single ⟨hstep, h.schema⟩ h.pins

theorem flushIfNeeded_chained (h : t.flushIfNeeded env = .ok t') : Chained (Still env) t t' := by
  unfold flushIfNeeded at h
  split at h
  · obtain ⟨⟨rows, t₁⟩, hflush, h⟩ := bind_eq_ok.mp h
    obtain rfl := Except.ok.inj h
    exact (flushLocked_same hflush).chained (.flush hflush)
  · obtain rfl := Except.ok.inj h
    exact .refl t

theorem insert_chained {batches : List (RecordBatch τ ν)} {rows : Nat} (h : t.insert env batches = .ok (rows, t')) :
    Chained (Still env) t t' := by
  obtain ⟨⟨n, t₁⟩, hinsert, h⟩ := bind_eq_ok.mp h
  dsimp only at h
  have hfirst := (insertLocked_same hinsert).chained (.insert batches hinsert)
  split at h
  · obtain ⟨-, rfl⟩ := Prod.mk.inj (Except.ok.inj h)
    exact hfirst
  · obtain ⟨t₂, hflush, h⟩ := bind_eq_ok.mp h
    obtain ⟨-, rfl⟩ := Prod.mk.inj (Except.ok.inj h)
    exact hfirst.trans (flushIfNeeded_chained hflush)

theorem update_chained {segmentDeletions : List (SegmentId × List Nat)} {memtableSeqnos : List Nat}
    {replacements : List (RecordBatch τ ν)} {rows : Nat}
    (h : t.update env segmentDeletions memtableSeqnos replacements = .ok (rows, t')) : Chained (Still env) t t' := by
  obtain ⟨⟨n, t₁⟩, hupdate, h⟩ := bind_eq_ok.mp h
  dsimp only at h
  have hfirst := (updateLocked_same hupdate).chained (.update _ _ replacements hupdate)
  split at h
  · obtain ⟨-, rfl⟩ := Prod.mk.inj (Except.ok.inj h)
    exact hfirst
  · obtain ⟨t₂, hflush, h⟩ := bind_eq_ok.mp h
    obtain ⟨-, rfl⟩ := Prod.mk.inj (Except.ok.inj h)
    exact hfirst.trans (flushIfNeeded_chained hflush)

theorem compactRun_chained {ids : List SegmentId} {rows : Nat} (hids : ids.Nodup)
    (h : t.compactRun env ids = .ok (rows, t')) : Chained (Still env) t t' := by
  unfold compactRun at h
  split at h
  · obtain ⟨-, rfl⟩ := Prod.mk.inj (Except.ok.inj h)
    exact .refl _
  · obtain ⟨rewrite, hread, h⟩ := bind_eq_ok.mp h
    obtain ⟨⟨n, t₁⟩, hlocked, h⟩ := bind_eq_ok.mp h
    obtain ⟨-, rfl⟩ := Prod.mk.inj (Except.ok.inj h)
    exact .pinned ⟨.pin t, rfl⟩ ⟨.unpin t₁ 0, rfl⟩ ((compactLocked_same hlocked).chained (.compact ids hids hread hlocked))

theorem compactSegments_chained {ids : List SegmentId} {rows : Nat} (hids : ids.Nodup)
    (h : t.compactSegments env ids = .ok (rows, t')) : Chained (Still env) t t' := by
  unfold compactSegments at h
  split at h
  · obtain ⟨-, rfl⟩ := Prod.mk.inj (Except.ok.inj h)
    exact .refl _
  · obtain ⟨rs, hruns, h⟩ := bind_eq_ok.mp h
    obtain ⟨⟨n, t₁⟩, hfold, h⟩ := bind_eq_ok.mp h
    obtain ⟨-, rfl⟩ := Prod.mk.inj (Except.ok.inj h)
    have hparts : ∀ run ∈ rs, run.Nodup := by
      intro run hrun
      have hflat := flatten_runs hruns
      rw [← hflat] at hids
      exact (List.nodup_flatten.mp hids).1 run hrun
    have hloop : ∀ (rs : List (List SegmentId)) (state state' : Nat × Table M), (∀ run ∈ rs, run.Nodup) →
        rs.foldlM (fun (state : Nat × Table M) run => do
          let done ← compactRun env state.2 run
          return (state.1 + done.1, done.2)) state = .ok state' → Chained (Still env) state.2 state'.2 := by
      intro rs
      induction rs with
      | nil =>
          intro state state' _ h
          rw [← Except.ok.inj h]
          exact .refl _
      | cons run rs ih =>
          intro state state' hparts h
          obtain ⟨mid, hmid, h⟩ := bind_eq_ok.mp h
          obtain ⟨⟨more, t₂⟩, hrun, hmid⟩ := bind_eq_ok.mp hmid
          obtain rfl := Except.ok.inj hmid
          exact (compactRun_chained (hparts run (by simp)) hrun).trans
            (ih _ state' (fun run hrun => hparts run (by simp [hrun])) h)
    exact .pinned ⟨.pin t, rfl⟩ ⟨.unpin t₁ 0, rfl⟩ (hloop rs (0, t.pin) (n, t₁) hparts hfold)

theorem setSchema_chained {schema : Schema τ} (h : t.setSchema env schema false = .ok t') : Chained (Locked env) t t' := by
  obtain ⟨⟨n, t₁⟩, hflush, h⟩ := bind_eq_ok.mp h
  obtain ⟨after, -, h⟩ := bind_eq_ok.mp h
  obtain ⟨t₂, hset, h⟩ := bind_eq_ok.mp h
  obtain rfl := Except.ok.inj h
  have hfirst : Chained (Locked env) t t₁ := .single (.flush hflush) (flushLocked_same hflush).pins
  exact hfirst.trans (.pinned (.pin t₁) (.unpin t₂ 0) (.single (.setSchema _ after _ hset) (setSchemaLocked_pins hset)))

/-- Every operation is a call, or a reader that takes or drops a snapshot. -/
theorem Op.chained (h : Op env t t') : Chained (Locked env) t t' ∨ t' = t.pin ∨ ∃ index, t' = t.unpin index := by
  have hstill : ∀ {t t' : Table M}, Chained (Still env) t t' → Chained (Locked env) t t' :=
    fun hchained => hchained.mono fun _ _ hstep => hstep.1
  cases h with
  | insert batches h => exact .inl (hstill (insert_chained h))
  | delete segmentDeletions memtableSeqnos h => exact .inl (.single (.delete _ _ h) (delete_same h).pins)
  | update segmentDeletions memtableSeqnos replacements h => exact .inl (hstill (update_chained h))
  | flush h => exact .inl (.single (.flush h) (flushLocked_same h).pins)
  | compactSegments ids hids h => exact .inl (hstill (compactSegments_chained hids h))
  | deleteSegments segmentIds h => exact .inl (.single (.deleteSegments _ h) (deleteSegments_same h).pins)
  | addColumn field h =>
      rcases change_ok h with ⟨-, rfl⟩ | ⟨schema, rewrite, hplan, h⟩
      · exact .inl (.refl _)
      · obtain ⟨-, rfl⟩ := Prod.mk.inj (Option.some.inj (plan_addColumn hplan))
        exact .inl (setSchema_chained h)
  | renameColumn source target h =>
      rcases change_ok h with ⟨-, rfl⟩ | ⟨schema, rewrite, hplan, h⟩
      · exact .inl (.refl _)
      · obtain ⟨index, -, heq⟩ := plan_renameColumn hplan
        obtain ⟨-, rfl⟩ := Prod.mk.inj (Option.some.inj heq)
        exact .inl (setSchema_chained h)
  | pin => exact .inr (.inl rfl)
  | unpin index => exact .inr (.inr ⟨index, rfl⟩)

/-- Every operation is a chain of locked steps that leave the schema alone, or one of the two that change it. -/
theorem Op.still (h : Op env t t') : Relation.ReflTransGen (Still env) t t' ∨
    ∃ c, (∀ schema, c.plan env t.schema.schema ≠ .ok (some (schema, true))) ∧ t.change env c = .ok t' := by
  cases h with
  | insert batches h => exact .inl (insert_chained h).steps
  | delete segmentDeletions memtableSeqnos h => exact .inl (.single ⟨.delete _ _ h, delete_schema h⟩)
  | update segmentDeletions memtableSeqnos replacements h => exact .inl (update_chained h).steps
  | flush h => exact .inl (.single ⟨.flush h, flushLocked_schema h⟩)
  | compactSegments ids hids h => exact .inl (compactSegments_chained hids h).steps
  | deleteSegments segmentIds h => exact .inl (.single ⟨.deleteSegments _ h, deleteSegments_schema h⟩)
  | addColumn field h =>
      refine .inr ⟨_, fun schema hplan => ?_, h⟩
      cases plan_addColumn hplan
  | renameColumn source target h =>
      refine .inr ⟨_, fun schema hplan => ?_, h⟩
      obtain ⟨index, -, heq⟩ := plan_renameColumn hplan
      cases heq
  | pin => exact .inl (.single ⟨.pin t, rfl⟩)
  | unpin index => exact .inl (.single ⟨.unpin t index, rfl⟩)

theorem Op.locked (h : Op env t t') : Relation.ReflTransGen (Locked env) t t' := by
  rcases h.chained with hchained | rfl | ⟨index, rfl⟩
  · exact hchained.steps
  · exact .single (.pin t)
  · exact .single (.unpin t index)

/-- A snapshot that is held before an operation and after it is held in between. -/
theorem Op.holds (h : Op env t t') {s : Snapshot τ ν} (hs : s ∈ t.pins) (hs' : s ∈ t'.pins) :
    Relation.ReflTransGen (fun a b => Locked env a b ∧ s ∈ b.pins) t t' := by
  rcases h.chained with hchained | rfl | ⟨index, rfl⟩
  · exact hchained.holds hs
  · exact .single ⟨.pin t, hs'⟩
  · exact .single ⟨.unpin t index, hs'⟩

end Ops

/-- The invariant behind the quarantine: what a held snapshot references, and what the other slot's
commit references, was given up by no commit it could be read under. -/
structure Isolated (t : Table M) : Prop extends Kept t where
  pins : ∀ s ∈ t.pins, s.txnId ≤ t.writer.file.committed.metaPage.txnId ∧
    ∀ e ∈ s.manifest.refs, dataStart ≤ e.offset ∧ Protects t.writer.file.committed.manifest s.txnId e
  other : ∀ page, readMeta t.writer.file.io.file t.writer.file.nextSlot = some page →
    page.txnId + 1 = t.writer.file.committed.metaPage.txnId ∧ 0 < page.manifest.len ∧
      ∀ m, readManifest t.writer.file.io.file page = .ok m → ∀ e ∈ m.refs,
        dataStart ≤ e.offset ∧ Protects t.writer.file.committed.manifest page.txnId e

/-- What a snapshot somebody holds references, and what either slot on disk points at. -/
def Reads (t : Table M) (e : Extent) : Prop :=
  (∃ s, (s = t.current ∨ s ∈ t.pins) ∧ e ∈ s.manifest.refs) ∨
    ∃ slot page, readMeta t.writer.file.io.file slot = some page ∧
      (e = page.manifest ∨ ∃ m, readManifest t.writer.file.io.file page = .ok m ∧ e ∈ m.refs)

theorem Kept.refs (h : t.Kept) {e : Extent} (he : e ∈ t.writer.file.committed.manifest.refs) :
    dataStart ≤ e.offset ∧ Protects t.writer.file.committed.manifest t.writer.file.committed.metaPage.txnId e := by
  have hpos := h.sound.settled.refsPos e he
  have hused := List.mem_append_right t.writer.file.space he
  exact ⟨(h.sound.settled.accounted.bounds (.inl hused) hpos).1, .of_accounted h.sound.settled.accounted hused hpos _⟩

/-- Everything readers may read is guarded while the next commit is prepared. -/
theorem Isolated.guarded (h : t.Isolated) {e : Extent} (he : t.Reads e) :
    Guarded t.minActiveTxn t.writer.file.beginManifest e ∧ t.writer.file.nextSlot.page.Apart e := by
  have hsafe : Safe t.minActiveTxn t.writer.file.beginManifest e →
      Guarded t.minActiveTxn t.writer.file.beginManifest e ∧ t.writer.file.nextSlot.page.Apart e := fun hsafe =>
    ⟨.inr hsafe, TableFile.page_apart_of_dataStart _ hsafe.low⟩
  have hprotected : ∀ {txn : Nat}, t.minActiveTxn ≤ txn + 1 → txn ≤ t.writer.file.committed.metaPage.txnId →
      dataStart ≤ e.offset ∧ Protects t.writer.file.committed.manifest txn e →
      Safe t.minActiveTxn t.writer.file.beginManifest e := fun hmin htxn ⟨hlow, hprotects⟩ =>
    ⟨hlow, _, hmin, Nat.lt_succ_of_le htxn, hprotects.congr rfl rfl⟩
  have hmin := h.min_le
  have hcommitted : e ∈ t.writer.file.committed.manifest.refs → Safe t.minActiveTxn t.writer.file.beginManifest e :=
    fun hmem => hprotected (Nat.le_succ_of_le hmin) le_rfl (h.refs hmem)
  have hspace : e ∈ t.writer.file.space → 0 < e.len → Safe t.minActiveTxn t.writer.file.beginManifest e :=
    fun hmem hpos => h.sound.safe hmin (List.mem_append_left _ hmem) hpos
  rcases he with ⟨s, rfl | hs, hmem⟩ | ⟨slot, page, hpage, hmem⟩
  · exact hsafe (hcommitted (h.synced.manifest ▸ hmem))
  · obtain ⟨htxn, hrefs⟩ := h.pins s hs
    exact hsafe (hprotected (Nat.le_succ_of_le (minActiveTxn_le_pin hs)) htxn (hrefs e hmem))
  · by_cases hslot : slot = t.writer.file.committed.slot
    · rw [hslot, h.sound.recovers.page] at hpage
      obtain rfl := Option.some.inj hpage
      rcases hmem with rfl | ⟨m, hm, hmem⟩
      · exact hsafe (hspace (by simp [TableFile.space]) (h.sound.settled.spacePos _ (by simp)))
      · rw [h.sound.recovers.manifest] at hm
        obtain rfl := Except.ok.inj hm
        exact hsafe (hcommitted hmem)
    · have hnext : slot = t.writer.file.nextSlot := by
        rw [h.sound.nextSlot]
        cases slot <;> cases hc : t.writer.file.committed.slot <;> simp_all [MetaSlot.other]
      rw [hnext] at hpage
      obtain ⟨htxn, hpos, hrefs⟩ := h.other page hpage
      rcases hmem with rfl | ⟨m, hm, hmem⟩
      · rw [h.sound.otherPage page hpage] at hpos hsafe ⊢
        refine ⟨.inr (h.sound.safe hmin (List.mem_append_left _ (by simp [TableFile.space])) hpos), ?_⟩
        exact TableFile.page_apart_of_dataStart _
          (h.sound.safe hmin (List.mem_append_left _ (by simp [TableFile.space])) hpos).low
      · exact hsafe (hprotected (htxn ▸ hmin) (by omega) (hrefs m hm e hmem))

/-- Whatever the lock is taken for, the quarantine holds afterwards. -/
theorem Isolated.advances (h : t.Isolated) (hstep : t.Advances t') : t'.Isolated := by
  refine ⟨h.toKept.advances hstep, ?_, ?_⟩
  · intro s hs
    rw [hstep.pins] at hs
    obtain ⟨htxn, hrefs⟩ := h.pins s hs
    cases hstep.transition with
    | quiet hfile =>
        rw [hfile]
        exact ⟨htxn, hrefs⟩
    | commit float p f hprepared hnumbered hcommit hfile =>
        obtain ⟨-, -, hnext⟩ := hprepared.commit_old h.sound h.min_le hcommit
        rw [hfile]
        refine ⟨htxn.trans (by dsimp only; omega), fun e he => ⟨(hrefs e he).1, ?_⟩⟩
        exact hprepared.commit_protects hcommit htxn (hrefs e he).2
  · intro page hpage
    cases hstep.transition with
    | quiet hfile =>
        rw [hfile] at hpage ⊢
        exact h.other page hpage
    | commit float p f hprepared hnumbered hcommit hfile =>
        -- the slot that is overwritten next holds the commit before
        obtain ⟨hold, hslot, hnext⟩ := hprepared.commit_old h.sound h.min_le hcommit
        rw [hfile] at hpage ⊢
        dsimp only at hpage ⊢
        rw [hslot, hold.page] at hpage
        obtain rfl := Option.some.inj hpage
        refine ⟨hnext.symm, h.sound.settled.spacePos _ (by simp), fun m hm e he => ?_⟩
        rw [hold.manifest] at hm
        obtain rfl := Except.ok.inj hm
        exact ⟨(h.refs he).1, hprepared.commit_protects hcommit le_rfl (h.refs he).2⟩

theorem Isolated.pin (h : t.Isolated) : t.pin.Isolated := by
  refine ⟨⟨h.sound, h.synced.congr rfl rfl, h.numbered⟩, fun s hs => ?_, h.other⟩
  rcases List.mem_cons.mp hs with rfl | hs
  · refine ⟨h.synced.txn.le, fun e he => ?_⟩
    rw [h.synced.manifest] at he
    rw [h.synced.txn]
    exact h.refs he
  · exact h.pins s hs

theorem Isolated.unpin (h : t.Isolated) (index : Nat) : (t.unpin index).Isolated :=
  ⟨⟨h.sound, h.synced.congr rfl rfl, h.numbered⟩, fun s hs => h.pins s (List.mem_of_mem_eraseIdx hs), h.other⟩

theorem Advances.issued (hstep : t.Advances t') :
    ∃ ops, FileIo.Issued t.writer.file.io ops t'.writer.file.io ∧
      ∀ e, Guarded t.minActiveTxn t.writer.file.beginManifest e → t.writer.file.nextSlot.page.Apart e →
        ∀ op ∈ ops, M.Spares e op := by
  cases hstep.transition with
  | quiet hfile => exact ⟨[], hfile ▸ .refl _, by simp⟩
  | commit float p f hprepared hnumbered hcommit hfile =>
      have hspares := hprepared.commit_spares hcommit
      rw [hfile]
      exact hspares

/-- A locked step commits at most once, changes the schema, or moves a pin. -/
theorem Locked.acts [DecidableEq τ] (h : t.Synced) (hnumbered : t.writer.file.committed.manifest.Numbered)
    (hstep : Locked env t t') : t.Acts t' ∨
      (∃ before after s, t.setSchemaLocked env before after false s = .ok t') ∨ t' = t.pin ∨ ∃ index, t' = t.unpin index := by
  cases hstep with
  | insert batches hok => exact .inl (insertLocked_acts h hok)
  | delete segmentDeletions memtableSeqnos hok => exact .inl (delete_acts h hok)
  | update segmentDeletions memtableSeqnos replacements hok => exact .inl (updateLocked_acts h hok)
  | flush hok => exact .inl (flushLocked_acts h hok)
  | compact ids hids hread hok =>
      exact .inl (compactLocked_acts h hnumbered (compactRead_current h hids hread) hok)
  | deleteSegments segmentIds hok => exact .inl (deleteSegments_acts h hok)
  | setSchema before after s hok => exact .inr (.inl ⟨before, after, s, hok⟩)
  | pin => exact .inr (.inr (.inl rfl))
  | unpin index => exact .inr (.inr (.inr ⟨index, rfl⟩))

theorem Locked.advances [DecidableEq τ] (h : t.Kept) (hstep : Locked env t t') :
    t.Advances t' ∨ t' = t.pin ∨ ∃ index, t' = t.unpin index := by
  rcases hstep.acts h.synced h.numbered with hacts | ⟨before, after, s, hok⟩ | hpins
  · exact .inl (h.advances_of_acts hacts)
  · exact .inl (setSchemaLocked_advances h hok)
  · exact .inr hpins

theorem Locked.isolated [DecidableEq τ] (h : t.Isolated) (hstep : Locked env t t') :
    t'.Isolated ∧ ∃ ops, FileIo.Issued t.writer.file.io ops t'.writer.file.io ∧
      ∀ e, t.Reads e → ∀ op ∈ ops, M.Spares e op := by
  rcases hstep.advances h.toKept with hadvances | rfl | ⟨index, rfl⟩
  · obtain ⟨ops, hissued, hspares⟩ := hadvances.issued
    exact ⟨h.advances hadvances, ops, hissued, fun e he => hspares e (h.guarded he).1 (h.guarded he).2⟩
  · exact ⟨h.pin, [], .refl _, by simp⟩
  · exact ⟨h.unpin index, [], .refl _, by simp⟩

/-- A snapshot's scan depends on the file through the segments of its manifest alone. -/
theorem scanTable_congr (env : Env τ ν) {file file' : M.File} {s : Snapshot τ ν}
    (h : ∀ e ∈ s.manifest.refs, ∀ k, M.read file' e k = M.read file e k) :
    scanTable env file' s = scanTable env file s := by
  have hsegment : ∀ entry ∈ s.liveSegments, readSegment env file' s entry = readSegment env file s entry := by
    intro entry hentry
    have hmem : entry.data ∈ s.manifest.refs :=
      Manifest.mem_refs.mpr ⟨entry, List.mem_of_mem_filter hentry, .inl rfl⟩
    rw [readSegment, readSegment, readSegmentAs, readSegmentAs, segmentReader, segmentReader, h _ hmem]
  have hsegments : s.liveSegments.mapM (fun entry => readSegment env file' s entry) =
      s.liveSegments.mapM (fun entry => readSegment env file s entry) := by
    generalize s.liveSegments = entries at hsegment
    induction entries with
    | nil => rfl
    | cons entry entries ih =>
        rw [List.mapM_cons, List.mapM_cons, hsegment entry (by simp), ih fun e he => hsegment e (by simp [he])]
  rw [scanTable, scanTable, hsegments]

/-- A table reached from a created one. -/
inductive Reachable [DecidableEq τ] (env : Env τ ν) : Table M → Prop where
  | create {t : Table M} (schema : Schema τ) (fingerprint : Schema τ → Nat) (newTableUuid : Extent → List UInt8)
      (h : Table.create env M schema fingerprint newTableUuid none = .ok t) : Reachable env t
  | step {t t' : Table M} (hrun : Reachable env t) (hstep : Locked env t t') : Reachable env t'

theorem create_isolated [DecidableEq τ] {schema : Schema τ} {fingerprint : Schema τ → Nat}
    {newTableUuid : Extent → List UInt8} (h : Table.create env M schema fingerprint newTableUuid none = .ok t) :
    t.Isolated := by
  obtain ⟨file, seed, current, -, hfresh, -, rfl⟩ := create_ok h
  have hnumbered : file.committed.manifest.Numbered := by
    rw [hfresh.manifest]
    exact ⟨List.nodup_nil, by simp [Manifest.empty]⟩
  refine ⟨⟨hfresh.sound, ⟨rfl, rfl⟩, hnumbered⟩, by simp [freshTable], fun page hpage => ?_⟩
  change readMeta file.io.file file.nextSlot = some page at hpage
  rw [hfresh.nextSlot, hfresh.seedPage] at hpage
  obtain rfl := Option.some.inj hpage
  change seed.txnId + 1 = file.committed.metaPage.txnId ∧ 0 < seed.manifest.len ∧
    ∀ m, readManifest file.io.file seed = .ok m → ∀ e ∈ m.refs,
      dataStart ≤ e.offset ∧ Protects file.committed.manifest seed.txnId e
  refine ⟨by rw [hfresh.seedTxn, hfresh.metaPage.1], hfresh.seedAt.1, fun m hm => ?_⟩
  rw [hfresh.seedManifest] at hm
  rw [← Except.ok.inj hm]
  simp [Manifest.refs, Manifest.empty]

theorem Reachable.isolated [DecidableEq τ] (hrun : Reachable env t) : t.Isolated := by
  induction hrun with
  | create schema fingerprint newTableUuid h => exact create_isolated h
  | step _ hstep ih => exact (hstep.isolated ih).1

/-- What a held snapshot references reads the same after a locked step. -/
theorem Reachable.reads_held [DecidableEq τ] (hrun : Reachable env t) (hstep : Locked env t t') {s : Snapshot τ ν}
    (hs : s ∈ t.pins) {e : Extent} (he : e ∈ s.manifest.refs) (k : Kind) :
    M.read t'.writer.file.io.file e k = M.read t.writer.file.io.file e k := by
  obtain ⟨-, ops, hissued, hspares⟩ := hstep.isolated hrun.isolated
  have hreads : t.Reads e := .inl ⟨s, .inr hs, he⟩
  rw [hissued.2]
  exact (Media.applyAll_spared (hspares e hreads)
    (hrun.isolated.sound.settled.ledger.guarded_inFile (hrun.isolated.guarded hreads).1)).2 k

/-- Snapshot isolation. However operations, pins and drops are ordered, no locked step writes a byte of
an extent that a held snapshot or either slot's manifest references; a snapshot scans the same for as
long as it is held; and every operation is a chain of such steps, along which what readers go on holding is held. -/
theorem held_snapshots_untouched [DecidableEq τ] (hrun : Reachable env t) :
    (∀ t', Locked env t t' → ∃ ops, FileIo.Issued t.writer.file.io ops t'.writer.file.io ∧
      ∀ e, t.Reads e → ∀ op ∈ ops, M.Spares e op) ∧
    (∀ s ∈ t.pins, ∀ t', Relation.ReflTransGen (fun t t' => Locked env t t' ∧ s ∈ t'.pins) t t' →
      scanTable env t'.writer.file.io.file s = scanTable env t.writer.file.io.file s) ∧
    ∀ t', Op env t t' → Relation.ReflTransGen (Locked env) t t' ∧ ∀ s ∈ t.pins, s ∈ t'.pins →
      Relation.ReflTransGen (fun t t' => Locked env t t' ∧ s ∈ t'.pins) t t' := by
  refine ⟨fun t' hstep => (hstep.isolated hrun.isolated).2, fun s hs t' hsteps => ?_,
    fun t' hop => ⟨hop.locked, fun s hs hs' => hop.holds hs hs'⟩⟩
  have hheld : Reachable env t' ∧ s ∈ t'.pins ∧
      scanTable env t'.writer.file.io.file s = scanTable env t.writer.file.io.file s := by
    induction hsteps with
    | refl => exact ⟨hrun, hs, rfl⟩
    | tail _ hstep ih =>
        obtain ⟨hreach, hpin, hscan⟩ := ih
        refine ⟨hreach.step hstep.1, hstep.2, (scanTable_congr env fun e he k => ?_).trans hscan⟩
        exact hreach.reads_held hstep.1 hpin he k
  exact hheld.2.2

end Table

section Pinned

abbrev PlainTable := Table (Journal plainSizes)

def pinnedEnv : Env Unit Nat :=
  plainEnv plainOptions [.insert 1 0 ⟨[()], [[7], [8]]⟩, .delete 2 [⟨0, {0}⟩] []]

/-- Two rows are flushed, a reader pins them, and one of them is deleted. -/
def pinnedRun : Except Error PlainTable := do
  let t ← Table.create pinnedEnv (Journal plainSizes) plainSchema (fun _ => 0) (fun _ => []) none
  let (_, t) ← t.insertLocked pinnedEnv [⟨plainSchema.fields, [[7], [8]]⟩]
  let (_, t) ← t.flushLocked pinnedEnv
  let (_, t) ← t.pin.delete pinnedEnv [(0, [0])] []
  let (_, t) ← t.flushLocked pinnedEnv
  return t

theorem pinned_snapshot_scans_the_same : ∃ t : PlainTable, Table.Reachable pinnedEnv t ∧
    ∃ s ∈ t.pins, s.txnId < t.current.txnId ∧
      ∀ t', Relation.ReflTransGen (fun t t' => Table.Locked pinnedEnv t t' ∧ s ∈ t'.pins) t t' →
        scanTable pinnedEnv t'.writer.file.io.file s = scanTable pinnedEnv t.writer.file.io.file s := by
  have hcheck : (match pinnedRun with
      | .ok t => decide (t.pins.map Snapshot.txnId = [2] ∧ t.current.txnId = 3)
      | .error _ => false) = true := by decide +kernel
  cases hrun : pinnedRun with
  | error e => rw [hrun] at hcheck; cases hcheck
  | ok t =>
      rw [hrun] at hcheck
      obtain ⟨hpins, hcurrent⟩ := of_decide_eq_true hcheck
      obtain ⟨t₀, hcreate, hrun⟩ := bind_eq_ok.mp hrun
      obtain ⟨⟨_, t₁⟩, hinsert, hrun⟩ := bind_eq_ok.mp hrun
      obtain ⟨⟨_, t₂⟩, hflush, hrun⟩ := bind_eq_ok.mp hrun
      obtain ⟨⟨_, t₃⟩, hdelete, hrun⟩ := bind_eq_ok.mp hrun
      obtain ⟨⟨_, t₄⟩, hagain, hrun⟩ := bind_eq_ok.mp hrun
      obtain rfl := Except.ok.inj hrun
      have hreach : Table.Reachable pinnedEnv t₄ :=
        .step (.step (.step (.step (.step (.create _ _ _ hcreate) (.insert _ hinsert)) (.flush hflush))
          (.pin t₂)) (.delete _ _ hdelete)) (.flush hagain)
      obtain ⟨s, hs, htxn⟩ : ∃ s ∈ t₄.pins, s.txnId = 2 := List.mem_map.mp (hpins ▸ List.mem_singleton_self 2)
      exact ⟨t₄, hreach, s, hs, by rw [htxn, hcurrent]; decide,
        fun t' hsteps => (Table.held_snapshots_untouched hreach).2.1 s hs t' hsteps⟩

end Pinned

end LocalTables
