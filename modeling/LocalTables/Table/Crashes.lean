import LocalTables.Table.Addresses
import LocalTables.TableFile.Retry

/-! A crash inside an operation. What is left of the file is the commit before the operation or the one it was to make;
what is left of the logs is what they held, and the first of the records it was appending. -/

namespace LocalTables

variable {τ ν : Type} {M : Media τ ν}

theorem Edits.issued {allowed : Manifest → Nat → Nat → Prop} {minActive : Nat} {p p' : Pending M}
    (hedits : Edits allowed minActive p p') :
    ∃ ops, FileIo.Issued p.io ops p'.io ∧ ∀ n, .setLen n ∈ ops → p.io.len ≤ n := by
  induction hedits with
  | refl => exact ⟨[], .refl _, by simp⟩
  | tail _ hedit ih =>
      obtain ⟨ops, hissued, hset⟩ := ih
      obtain ⟨more, hmore, hmoreSet, -⟩ := hedit.issued
      refine ⟨ops ++ more, hissued.trans hmore, ?_⟩
      intro n hn
      rcases List.mem_append.mp hn with hn | hn
      · exact hset n hn
      · have hgrown := (Media.Cut.applyAll p.io.file ops).len_le hset le_rfl
        rw [← hissued.2] at hgrown
        exact hgrown.trans (hmoreSet n hn)

namespace Table

variable {env : Env τ ν} {t t' : Table M} {left : M.File}

/-- The file after a crash on the way from one table to the next: some of the requests have reached it, the last perhaps in
part, and the meta page to be overwritten is as it was, or the new one, or does not read. -/
structure CutShort (t t' : Table M) (left : M.File) : Prop where
  cut : M.Cut t.writer.file.io.file (FileIo.since t.writer.file.io t'.writer.file.io) left
  page : ∀ page, readMeta left t.writer.file.nextSlot = some page →
    readMeta t.writer.file.io.file t.writer.file.nextSlot = some page ∨ page = t'.writer.file.committed.metaPage

namespace Left

theorem of_sound (h : t.Kept) {log : List (IoOp τ ν)} (hsound : TableFile.Sound .columnar { t.writer.file with io := ⟨left, log⟩ })
    (hreads : ∀ e, Guarded t.minActiveTxn t.writer.file.beginManifest e → t.writer.file.nextSlot.page.Apart e →
      ∀ k, M.read left e k = M.read t.writer.file.io.file e k) : t.Left left where
  sound := hsound.withIo ⟨left, []⟩ le_rfl fun _ _ _ => rfl
  reads e he := by
    have hsafe := h.sound.safe h.min_le (List.mem_append_right _ he) (h.sound.settled.refsPos e he)
    exact hreads e (.inr hsafe) (TableFile.page_apart_of_dataStart _ hsafe.low)
  schema := by
    have hguarded := h.sound.needs_guarded h.min_le
      (e := schemaExtent t.writer.file.header t.writer.file.committed.manifest) (.inl (by simp [Committed.needs]))
    rw [readSchema, readSchema, hreads _ hguarded (TableFile.page_apart_of_dataStart _ h.sound.recovers.schemaAt.1)]

theorem whole (h : t.Kept) : t.Left t.writer.file.io.file :=
  of_sound h (h.sound.withIo ⟨t.writer.file.io.file, []⟩ le_rfl fun _ _ _ => rfl) fun _ _ _ _ => rfl

end Left

theorem left_of_prepared (h : t.Kept) {float : Extent} {p : Pending M}
    (hprepared : Prepared t.minActiveTxn t.writer.file float p) {ops : List (IoOp τ ν)}
    (hissued : FileIo.Issued t.writer.file.io ops p.io) (hset : ∀ n, .setLen n ∈ ops → t.writer.file.io.len ≤ n)
    (hcut : M.Cut t.writer.file.io.file ops left) : t.Left left := by
  have hbegin : Prepared t.minActiveTxn t.writer.file .empty ⟨t.writer.file.io, t.writer.file.beginManifest⟩ := .begin h.sound
  obtain ⟨ops', hissued', hspares⟩ := hprepared.issued
  obtain rfl : ops = ops' := hissued.since.symm.trans hissued'.since
  have hreads : ∀ e, Guarded t.minActiveTxn t.writer.file.beginManifest e → ∀ k,
      M.read left e k = M.read t.writer.file.io.file e k := fun e he =>
    (hcut.spared (hspares e he).2 (hbegin.ledger.guarded_inFile he)).2
  have hsound : TableFile.Sound .columnar { t.writer.file with io := ⟨left, []⟩ } := by
    apply h.sound.withIo ⟨left, []⟩ (hcut.len_le hset le_rfl)
    rintro e (hlow | ⟨he, hpos⟩)
    · exact hreads e (.inl hlow)
    · exact hreads e (.inr (h.sound.safe h.min_le (List.mem_append_left _ he) hpos))
  exact .of_sound h hsound fun e he _ => hreads e he

theorem left_of_commit (h : t.Kept) {float : Extent} {p : Pending M} {f : TableFile M}
    (hprepared : Prepared t.minActiveTxn t.writer.file float p) (hdrafted : Drafted t.minActiveTxn t.writer.file p)
    (hcommit : TableFile.commit { t.writer.file with io := p.io } p.manifest = .ok f)
    (hfile : t'.writer.file = { f with schema := t'.writer.file.schema })
    (hcut : M.Cut p.io.file (TableFile.commitRequests { t.writer.file with io := p.io } p.manifest) left)
    (hpage : ∀ page, readMeta left t.writer.file.nextSlot = some page →
      readMeta t.writer.file.io.file t.writer.file.nextSlot = some page ∨ page = t'.writer.file.committed.metaPage) :
    t.Left left ∨ t'.Left left := by
  have hcommitted : t'.writer.file.committed = f.committed := by rw [hfile]
  have hio : t'.writer.file.io = f.io := by rw [hfile]
  have hheader' : t'.writer.file.header = f.header := by rw [hfile]
  have htorn : TableFile.TornFails { t.writer.file with io := p.io } p.manifest left := by
    intro page hread
    rcases hpage page hread with hold | rfl
    · left
      rw [← hold]
      exact readMeta_congr (hprepared.reads h.sound (.inl (MetaSlot.page_stop_le _)))
    · right
      obtain ⟨e, manifest, io, hwrite, -, hf⟩ := TableFile.commit_ok hcommit
      exact ⟨_, TableFile.nextCommitted_eq hwrite, by rw [hcommitted, hf]⟩
  have hspared : ∀ e, e.stop ≤ p.io.len → t.writer.file.nextSlot.page.Apart e →
      ∀ {file : M.File}, M.Cut p.io.file (TableFile.commitRequests { t.writer.file with io := p.io } p.manifest) file →
        ∀ k, M.read file e k = M.read p.io.file e k := fun e he hapart file hcut =>
    (TableFile.spared_commitCut (t := { t.writer.file with io := p.io }) hcut he hapart).2
  obtain ⟨ops, -, hspares⟩ := hprepared.issued
  rcases hprepared.cut h.sound h.min_le hcut htorn with hold | ⟨f', hf', hnew⟩
  · left
    apply Left.of_sound h hold
    intro e he hapart k
    rw [hspared e (hprepared.ledger.guarded_inFile (hspares e he).1) hapart hcut, hprepared.reads h.sound he]
  · right
    obtain rfl : f' = f := Except.ok.inj (hf'.symm.trans hcommit)
    have hdone : M.Cut p.io.file (TableFile.commitRequests { t.writer.file with io := p.io } p.manifest)
        t'.writer.file.io.file := by
      rw [hio, (TableFile.issued_commit hcommit).2]
      exact Media.Cut.applyAll _ _
    have hboth : ∀ e, e.stop ≤ p.io.len → dataStart ≤ e.offset →
        ∀ k, M.read left e k = M.read t'.writer.file.io.file e k := fun e he hlow k =>
      (hspared e he (TableFile.page_apart_of_dataStart _ hlow) hcut k).trans
        (hspared e he (TableFile.page_apart_of_dataStart _ hlow) hdone k).symm
    obtain ⟨hstamps, -, hheader, -, hsegments, -⟩ := TableFile.commit_stamps hcommit
    refine ⟨?_, ?_, ?_⟩
    · rw [hfile]
      exact sound_schema (hnew.withIo ⟨left, []⟩ le_rfl fun _ _ _ => rfl) _
    · intro e he
      have hmem : e ∈ p.manifest.refs := by
        rw [hcommitted, Manifest.refs, hsegments] at he
        exact he
      have hused := List.mem_append_right t.writer.file.manifests hmem
      have hlow := (hdrafted.accounted.bounds (.inl hused) (hdrafted.refsPos e hmem)).1
      exact hboth e (hdrafted.guarded_inFile (hdrafted.refs_guarded h.min_le hmem)) hlow
    · have hextent : schemaExtent t'.writer.file.header t'.writer.file.committed.manifest =
          schemaExtent t.writer.file.header p.manifest := by
        have hmanifest : f'.committed.manifest.schema = p.manifest.schema := congrArg (fun stamps => stamps.2.2) hstamps
        unfold schemaExtent
        rw [hcommitted, hheader', hheader, hmanifest]
      obtain ⟨-, hlow, hin⟩ := hprepared.schemaWritten h.sound h.min_le
      rw [hextent, readSchema, readSchema, hboth _ hin hlow]

/-- A crash on the way to a commit that was prepared leaves a file for the table before it or for the one after it. -/
theorem CutShort.leaves_of (h : t.Kept) {float : Extent} {p : Pending M} {f : TableFile M}
    (hprepared : Prepared t.minActiveTxn t.writer.file float p) (hdrafted : Drafted t.minActiveTxn t.writer.file p)
    {ops : List (IoOp τ ν)} (hissued : FileIo.Issued t.writer.file.io ops p.io)
    (hset : ∀ n, .setLen n ∈ ops → t.writer.file.io.len ≤ n)
    (hcommit : TableFile.commit { t.writer.file with io := p.io } p.manifest = .ok f)
    (hfile : t'.writer.file = { f with schema := t'.writer.file.schema }) (hcut : t.CutShort t' left) :
    t.Left left ∨ t'.Left left := by
  have hio : t'.writer.file.io = f.io := by rw [hfile]
  have hrequests := hcut.cut
  rw [hio, (hissued.trans (TableFile.issued_commit hcommit)).since] at hrequests
  rcases hrequests.append with hearly | hlate
  · exact .inl (left_of_prepared h hprepared hissued hset hearly)
  · rw [← hissued.2] at hlate
    exact left_of_commit h hprepared hdrafted hcommit hfile hlate hcut.page

/-- A crash on the way to a commit leaves a file for the table before it or for the one after it. -/
theorem CutShort.leaves (h : t.Kept) (hacts : t.Acts t') (hcut : t.CutShort t' left) : t.Left left ∨ t'.Left left := by
  cases hacts.commits with
  | quiet hfile =>
      have hnothing := hcut.cut
      rw [hfile, (FileIo.Issued.refl t.writer.file.io).since] at hnothing
      obtain rfl : left = t.writer.file.io.file := by
        cases hnothing
        rfl
      exact .inl (.whole h)
  | edits p hedits hcommit =>
      have hbegin : Prepared t.minActiveTxn t.writer.file .empty ⟨t.writer.file.io, t.writer.file.beginManifest⟩ :=
        .begin h.sound
      have hdraft : Drafted t.minActiveTxn t.writer.file ⟨t.writer.file.io, t.writer.file.beginManifest⟩ :=
        .begin h.sound.settled.roomy
      obtain ⟨ops, hissued, hset⟩ := hedits.issued
      exact hcut.leaves_of h (hbegin.edits hedits (.inl rfl)) (hdraft.edits hedits) hissued hset hcommit rfl

end Table

section Wal

variable {env : Env τ ν} {p p' : WalPair} {old fresh more : List (WalRecord τ ν)}

/-- A log of which the first bytes are left. -/
def WalPair.cutTo (p : WalPair) (index : Bool) (good : Nat) : WalPair := p.setFile index ((p.file index).cutTo good)

theorem WalPair.Holds.appended (h : p.Holds env old fresh) {frames : List Bytes} (hok : p.appendGroup frames = .ok p') :
    p'.file (!p.active) = p.file (!p.active) ∧ (p'.file p.active).disk.header = (p.file p.active).disk.header ∧
      (p'.file p.active).disk.bytes = (p.file p.active).disk.bytes ++ frames.flatten := by
  obtain ⟨f, hf, hok⟩ := bind_eq_ok.mp hok
  obtain rfl := Except.ok.inj hok
  rw [file_setFile_other, file_setFile_self]
  refine ⟨rfl, ?_⟩
  unfold WalFile.appendGroup at hf
  split at hf
  · next hnone =>
      rw [← Except.ok.inj hf, List.isEmpty_iff.mp hnone]
      simp
  · split at hf
    · rw [← Except.ok.inj hf]
      exact ⟨rfl, WalFile.written_end h.active.len _⟩
    · cases hf

/-- A crash inside an append leaves some of its first records, and perhaps part of another. -/
theorem WalPair.Holds.crashed_append (h : p.Holds env old fresh) {tableUuid : List UInt8} (howned : p.Owned tableUuid)
    {frames : List Bytes} (hframes : more.mapM (encodeRecord env) = .ok frames) (hrising : Rising (old ++ (fresh ++ more)))
    (hok : p.appendGroup frames = .ok p') {good : Nat} (hgood : (p.file p.active).len ≤ good) :
    ∃ whole, whole <+: more ∧ CrashedLogs env tableUuid (p'.cutTo p.active good).a.disk (p'.cutTo p.active good).b.disk
      old (fresh ++ whole) := by
  obtain ⟨hother, hheader, hbytes⟩ := h.appended hok
  have hfits : ((p.file p.active).disk.bytes ++ frames.flatten).length < 2 ^ 64 := by
    rw [← hbytes]
    exact (p'.file p.active).disk.fits
  obtain ⟨whole, hwhole, htorn⟩ := h.active.torn hframes hfits (good - (p.file p.active).len)
  refine ⟨whole, hwhole, ?_⟩
  have hcut : ((p'.file p.active).cutTo good).disk.bytes =
      (p.file p.active).disk.bytes ++ frames.flatten.take (good - (p.file p.active).len) := by
    change (p'.file p.active).disk.bytes.take good = _
    rw [hbytes, List.take_append, h.active.len, List.take_of_length_le (h.active.len ▸ hgood)]
  rw [← hcut] at htorn
  have hrising' : Rising (old ++ (fresh ++ whole)) :=
    List.Pairwise.sublist (((hwhole.sublist).append_left fresh).append_left old) hrising
  have hactive := h.active.header
  have hretired := h.retired.header
  have hretiredFramed := h.retired.framed
  have hnewest := h.newest
  obtain ⟨a, b, active⟩ := p
  obtain ⟨a', b', active'⟩ := p'
  cases active with
  | false =>
      change b' = b at hother
      subst hother
      change a'.disk.header = a.disk.header at hheader
      change a.disk.header = a.header at hactive
      change b'.disk.header = b'.header at hretired
      have hdecide : decide (b'.disk.header.generation > a'.disk.header.generation) = false := by
        rw [hheader, hactive, hretired]
        exact hnewest
      refine ⟨⟨?_, ?_⟩, ?_, ?_, hrising'⟩
      · change a'.disk.header.tableUuid = tableUuid
        rw [hheader, hactive]
        exact howned.1
      · change b'.disk.header.tableUuid = tableUuid
        rw [hretired]
        exact howned.2
      · change Torn env _ (if decide (b'.disk.header.generation > a'.disk.header.generation) then b'.disk
          else (a'.cutTo good).disk).bytes
        rw [hdecide]
        exact htorn
      · change Framed env _ (if decide (b'.disk.header.generation > a'.disk.header.generation) then (a'.cutTo good).disk
          else b'.disk).bytes
        rw [hdecide]
        exact hretiredFramed
  | true =>
      change a' = a at hother
      subst hother
      change b'.disk.header = b.disk.header at hheader
      change b.disk.header = b.header at hactive
      change a'.disk.header = a'.header at hretired
      have hdecide : decide (b'.disk.header.generation > a'.disk.header.generation) = true := by
        rw [hheader, hactive, hretired]
        exact hnewest
      refine ⟨⟨?_, ?_⟩, ?_, ?_, hrising'⟩
      · change a'.disk.header.tableUuid = tableUuid
        rw [hretired]
        exact howned.1
      · change b'.disk.header.tableUuid = tableUuid
        rw [hheader, hactive]
        exact howned.2
      · change Torn env _ (if decide (b'.disk.header.generation > a'.disk.header.generation) then (b'.cutTo good).disk
          else a'.disk).bytes
        rw [hdecide]
        exact htorn
      · change Framed env _ (if decide (b'.disk.header.generation > a'.disk.header.generation) then a'.disk
          else (b'.cutTo good).disk).bytes
        rw [hdecide]
        exact hretiredFramed

end Wal

section Prefixes

variable {env : Env τ ν}

theorem mapM_take {ε α β : Type} {f : α → Except ε β} {as : List α} {bs : List β} (h : as.mapM f = .ok bs) (count : Nat) :
    (as.take count).mapM f = .ok (bs.take count) := by
  induction as generalizing bs count with
  | nil =>
      obtain rfl := Except.ok.inj h
      simp
      rfl
  | cons a as ih =>
      rw [List.mapM_cons] at h
      obtain ⟨b, hb, h⟩ := bind_eq_ok.mp h
      obtain ⟨rest, hrest, h⟩ := bind_eq_ok.mp h
      obtain rfl := Except.ok.inj h
      cases count with
      | zero => rfl
      | succ count =>
          rw [List.take_succ_cons, List.take_succ_cons, List.mapM_cons, hb]
          apply bind_eq_ok.mpr
          exact ⟨b, rfl, bind_eq_ok.mpr ⟨_, ih hrest count, rfl⟩⟩

theorem WalPair.Holds.appendGroup_take {p p' : WalPair} {old fresh : List (WalRecord τ ν)} (h : p.Holds env old fresh)
    {frames : List Bytes} (hok : p.appendGroup frames = .ok p') (count : Nat) :
    ∃ p₂, p.appendGroup (frames.take count) = .ok p₂ := by
  obtain ⟨-, -, hbytes⟩ := h.appended hok
  have hfull : ((p.file p.active).written frames.flatten).length < 2 ^ 64 := by
    rw [WalFile.written_end h.active.len, ← hbytes]
    exact (p'.file p.active).disk.fits
  have hshort : ((p.file p.active).written (frames.take count).flatten).length < 2 ^ 64 := by
    apply Nat.lt_of_le_of_lt _ hfull
    rw [WalFile.written_end h.active.len, WalFile.written_end h.active.len, List.length_append, List.length_append]
    have hsub : (frames.take count).flatten.Sublist frames.flatten := (List.take_sublist _ _).flatten
    have := hsub.length_le
    omega
  by_cases hnone : (frames.take count).isEmpty
  · have hfile : (p.file p.active).appendGroup (frames.take count) = .ok (p.file p.active) := if_pos hnone
    exact ⟨_, bind_eq_ok.mpr ⟨_, hfile, rfl⟩⟩
  · apply Exists.intro _
    apply bind_eq_ok.mpr
    refine ⟨_, (if_neg hnone).trans (dif_pos hshort), rfl⟩

end Prefixes

namespace Table

variable {env : Env τ ν} {t t' : Table M} {old fresh : List (WalRecord τ ν)}

section Writes

variable [DecidableEq τ]

/-- The calls that write to the log, under the writer lock, each with its updates: one for each batch an insert appends. A
statement names a segment once, and a row has a value for every field. -/
inductive Writes (env : Env τ ν) (t : Table M) : List (Bag.Update RowId (Row ν)) → Table M → Prop where
  | insert {t' : Table M} (batches : List (RecordBatch τ ν)) {rows : Nat}
      (hok : t.insertLocked env batches = .ok (rows, t')) :
      Writes env t (insertUpdates t.writer.memtable.nextSeqno batches) t'
  | delete {t' : Table M} (segmentDeletions : List (SegmentId × List Nat)) (memtableSeqnos : List Nat) {deleted : Nat}
      (hnodup : (segmentDeletions.map Prod.fst).Nodup)
      (hok : t.delete env segmentDeletions memtableSeqnos = .ok (deleted, t')) :
      Writes env t [deleteUpdate segmentDeletions memtableSeqnos] t'
  | update {t' : Table M} (segmentDeletions : List (SegmentId × List Nat)) (memtableSeqnos : List Nat)
      (replacements : List (RecordBatch τ ν)) {rows : Nat} (hnodup : (segmentDeletions.map Prod.fst).Nodup)
      (hwidth : ∀ batch ∈ replacements, ∀ row ∈ batch.rows, row.length = batch.fields.length)
      (hok : t.updateLocked env segmentDeletions memtableSeqnos replacements = .ok (rows, t')) :
      Writes env t [replaceUpdate segmentDeletions memtableSeqnos t.writer.memtable.nextSeqno replacements] t'

theorem Writes.added {us : List (Bag.Update RowId (Row ν))} (h : t.Writes env us t') :
    ∀ u ∈ us, ∀ entry ∈ u.added, ¬t.Given entry.1 := by
  cases h with
  | insert batches hok => exact insertUpdates_not_given
  | delete segmentDeletions memtableSeqnos hnodup hok =>
      intro u hu entry hentry
      obtain rfl := List.mem_singleton.mp hu
      exact absurd hentry (Multiset.notMem_zero entry)
  | update segmentDeletions memtableSeqnos replacements hnodup hwidth hok =>
      intro u hu entry hentry
      obtain rfl := List.mem_singleton.mp hu
      exact numbered_not_given le_rfl hentry

/-- What the log of a call says: all of it is there and the call has done all its updates, and were only its first records
there, the call would have done its first updates. -/
structure OnRecord (env : Env τ ν) (t : Table M) (old fresh more : List (WalRecord τ ν))
    (us : List (Bag.Update RowId (Row ν))) (t' : Table M) : Prop where
  appends : t.Appends env old fresh more t'
  held : t'.held env = Bag.applyAll us (t.held env)
  front : ∀ whole, whole <+: more → ∃ front t₂, front <+: us ∧ t.Appends env old fresh whole t₂ ∧
    t₂.held env = Bag.applyAll front (t.held env)

theorem OnRecord.of_one (h : t.Durable env old fresh) {more : List (WalRecord τ ν)}
    {u : Bag.Update RowId (Row ν)} (hone : more.length ≤ 1) (happends : t.Appends env old fresh more t')
    (hheld : t'.held env = u.apply (t.held env)) : t.OnRecord env old fresh more [u] t' := by
  refine ⟨happends, hheld, ?_⟩
  intro whole hwhole
  by_cases hnone : whole = []
  · subst hnone
    exact ⟨[], t, List.nil_prefix, h.appends_nil, rfl⟩
  · have hall : whole = more := by
      apply hwhole.eq_of_length_le
      have := List.length_pos_iff.mpr hnone
      omega
    subst hall
    exact ⟨[u], t', List.prefix_refl _, happends, hheld⟩

omit [DecidableEq τ] in
theorem insertUpdates_take (lsn seqno : Nat) {front batches : List (RecordBatch τ ν)} {count : Nat}
    (h : (planInserts lsn seqno front).2 = (planInserts lsn seqno batches).2.take count) :
    insertUpdates seqno front <+: insertUpdates seqno batches := by
  unfold insertUpdates
  rw [planInserts_snd 0 lsn, planInserts_snd 0 lsn seqno batches, h, List.map_take, List.map_take]
  exact List.take_prefix _ _

omit [DecidableEq τ] in
theorem planInserts_eq_nil {lsn seqno : Nat} {batches : List (RecordBatch τ ν)} (h : totalRows batches = 0) :
    planInserts lsn seqno batches = ([], []) := by
  induction batches generalizing lsn seqno with
  | nil => rfl
  | cons batch batches ih =>
      have hsplit : batch.numRows = 0 ∧ totalRows batches = 0 := by
        have hsum : batch.numRows + totalRows batches = 0 := h
        omega
      rw [planInserts_cons, if_pos hsplit.1]
      exact ih hsplit.2

theorem OnRecord.appendRows (h : t.Durable env old fresh) {batches : List (RecordBatch τ ν)}
    (hfields : ∀ batch ∈ batches, batch.fields = t.schema.schema.fields) (hsome : totalRows batches ≠ 0)
    (hok : t.appendRows env batches = .ok t') :
    t.OnRecord env old fresh (planInserts t.writer.nextLsn t.writer.memtable.nextSeqno batches).1
      (insertUpdates t.writer.memtable.nextSeqno batches) t' := by
  refine ⟨h.appendRows hfields hsome hok, held_appendRows h.whole.tidy hok, ?_⟩
  intro whole hwhole
  by_cases hnone : whole = []
  · subst hnone
    exact ⟨[], t, List.nil_prefix, h.appends_nil, rfl⟩
  · obtain ⟨front, hfront, hrecords, hplanned⟩ :=
      planInserts_take t.writer.nextLsn t.writer.memtable.nextSeqno batches whole.length
    rw [← List.prefix_iff_eq_take.mp hwhole] at hrecords
    have hrows : totalRows front ≠ 0 := by
      intro hzero
      rw [planInserts_eq_nil hzero] at hrecords
      exact hnone hrecords.symm
    obtain ⟨frames, wal, hframes, hwal, -⟩ := appendRows_ok hok
    have hwholeFrames : (planInserts t.writer.nextLsn t.writer.memtable.nextSeqno front).1.mapM (encodeRecord env) =
        .ok (frames.take whole.length) := by
      calc (planInserts t.writer.nextLsn t.writer.memtable.nextSeqno front).1.mapM (encodeRecord env)
          = ((planInserts t.writer.nextLsn t.writer.memtable.nextSeqno batches).1.take whole.length).mapM
              (encodeRecord env) := by rw [hrecords, ← List.prefix_iff_eq_take.mp hwhole]
        _ = .ok (frames.take whole.length) := mapM_take hframes _
    obtain ⟨wal₂, hwal₂⟩ := h.logged.holds.appendGroup_take hwal whole.length
    have hdone : ∃ t₂, t.appendRows env front = .ok t₂ :=
      ⟨_, bind_eq_ok.mpr ⟨_, hwholeFrames, bind_eq_ok.mpr ⟨_, hwal₂, rfl⟩⟩⟩
    obtain ⟨t₂, hok₂⟩ := hdone
    refine ⟨insertUpdates t.writer.memtable.nextSeqno front, t₂, insertUpdates_take _ _ hplanned, ?_,
      held_appendRows h.whole.tidy hok₂⟩
    rw [← hrecords]
    exact h.appendRows (fun batch hbatch => hfields batch (hfront.subset hbatch)) hrows hok₂

theorem Writes.recorded (h : t.Durable env old fresh) {us : List (Bag.Update RowId (Row ν))} (hwrites : t.Writes env us t') :
    ∃ more, t.OnRecord env old fresh more us t' := by
  have hreadable : t.Readable := by
    apply All.readable
    intro entry hentry
    obtain ⟨data, hstores, -⟩ := h.accepted entry hentry
    exact ⟨data, hstores, trivial⟩
  cases hwrites with
  | insert batches hok =>
      rcases (insertLocked_ok hok).2 with ⟨hzero, rfl⟩ | ⟨hsome, hfields, happend⟩
      · refine ⟨[], h.appends_nil, ?_, ?_⟩
        · rw [insertUpdates, planInserts_eq_nil hzero]
          rfl
        · intro whole hwhole
          obtain rfl := List.prefix_nil.mp hwhole
          exact ⟨[], _, List.nil_prefix, h.appends_nil, rfl⟩
      · exact ⟨_, .appendRows h hfields hsome happend⟩
  | delete segmentDeletions memtableSeqnos hnodup hok =>
      obtain ⟨more, hone, happends⟩ := h.delete hok
      exact ⟨more, .of_one h hone happends (held_delete hreadable h.whole.tidy hnodup hok)⟩
  | update segmentDeletions memtableSeqnos replacements hnodup hwidth hok =>
      obtain ⟨more, hone, happends⟩ := h.updateLocked hwidth hok
      exact ⟨more, .of_one h hone happends (held_updateLocked hreadable h.whole.tidy hnodup hwidth hok)⟩

end Writes

end Table

end LocalTables
