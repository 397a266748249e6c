import LocalTables.Wal.File

/-! The two log files of a table (`wal/mod.rs`). Appends go to the one with the higher generation; a flush
rotates to the other one and truncates the retired log once its records are in the file. -/

namespace LocalTables

variable {τ ν : Type}

/-- Both log files, with one of them taking appends: the second when `active`. -/
structure WalPair where
  a : WalFile
  b : WalFile
  active : Bool
  deriving DecidableEq

/-- Which of the two logs holds the newest records, and so takes appends. -/
def newest (a b : WalFile) : Bool := decide (b.header.generation > a.header.generation)

namespace WalPair

def file (p : WalPair) (index : Bool) : WalFile := if index then p.b else p.a

def setFile (p : WalPair) (index : Bool) (f : WalFile) : WalPair :=
  if index then { p with b := f } else { p with a := f }

/-- Open one log, creating it when it is missing. -/
def openOne (disk : Option LogFile) (tableUuid : List UInt8) : Except Error WalFile :=
  match disk with
  | none => .ok (WalFile.create ⟨0, tableUuid⟩)
  | some disk =>
      if disk.header.tableUuid ≠ tableUuid then .error (.corrupt "the path is a log for a different table")
      else .ok (WalFile.openLog disk)

/-- Open both logs. The one with the higher generation takes new appends. -/
def openPair (a b : Option LogFile) (tableUuid : List UInt8) : Except Error WalPair := do
  let a ← openOne a tableUuid
  let b ← openOne b tableUuid
  return ⟨a, b, newest a b⟩

variable (p : WalPair)

def activeLen : Nat := (p.file p.active).len

/-- Append records to the active log and sync once. -/
def appendGroup (frames : List Bytes) : Except Error WalPair := do
  let f ← (p.file p.active).appendGroup frames
  return p.setFile p.active f

/-- Switch appends to the other log, leaving the current one as it is. Returns the one just retired. -/
def rotate : Bool × WalPair :=
  let next := !p.active
  let f := (p.file next).rotate ((p.file p.active).header.generation + 1)
  (p.active, { p.setFile next f with active := next })

/-- Drop the records of a retired log, after a flush made them durable. -/
def truncate (index : Bool) : WalPair := p.setFile index (p.file index).truncate

/-- Read both logs in generation order, discarding any torn tail. -/
def recover (env : Env τ ν) : Except Error (List (WalRecord τ ν) × WalPair) := do
  let (logA, a) ← p.a.recover env
  let (logB, b) ← p.b.recover env
  let logs := [logA, logB].insertionSort fun left right => left.generation ≤ right.generation
  let records := logs.flatMap RecoveredLog.records
  return (records.insertionSort fun left right => left.lsn ≤ right.lsn, ⟨a, b, newest a b⟩)

end WalPair

/-- Whole frames of these records, and perhaps part of another. -/
def Torn (env : Env τ ν) (records : List (WalRecord τ ν)) (bytes : Bytes) : Prop :=
  ∃ front part, Framed env records front ∧ bytes = front ++ part ∧
    (part = [] ∨ ∃ record frame n, encodeRecord env record = .ok frame ∧ part = frame.take n ∧ 0 < n ∧
      n < frame.length ∧ front.length + frame.length < 2 ^ 64)

theorem Framed.torn {env : Env τ ν} {records : List (WalRecord τ ν)} {bytes : Bytes}
    (h : Framed env records bytes) : Torn env records bytes := ⟨bytes, [], h, by simp, .inl rfl⟩

/-- A log file whose handle is up to date and which holds exactly these records. -/
structure WalFile.Holds (env : Env τ ν) (f : WalFile) (records : List (WalRecord τ ν)) : Prop where
  header : f.disk.header = f.header
  len : f.len = f.disk.bytes.length
  framed : Framed env records f.disk.bytes

namespace WalFile

variable {env : Env τ ν} {f : WalFile} {records more : List (WalRecord τ ν)}

theorem written_end (hlen : f.len = f.disk.bytes.length) (joined : Bytes) :
    f.written joined = f.disk.bytes ++ joined := by
  rw [written, hlen, Nat.sub_self, List.take_length, List.replicate_zero, List.append_nil,
    List.drop_eq_nil_of_le (by omega), List.append_nil]

theorem Holds.appendGroup (h : f.Holds env records) {frames : List Bytes} {f' : WalFile}
    (hframes : more.mapM (encodeRecord env) = .ok frames) (hok : f.appendGroup frames = .ok f') :
    f'.Holds env (records ++ more) ∧ f'.header = f.header ∧
      (f.disk.bytes ++ frames.flatten).length < 2 ^ 64 := by
  have hmore := Framed.of_mapM hframes
  unfold WalFile.appendGroup at hok
  split at hok
  · next hnone =>
      obtain rfl := Except.ok.inj hok
      rw [List.isEmpty_iff] at hnone
      subst hnone
      have hfits := f.disk.fits
      refine ⟨⟨h.header, h.len, ?_⟩, rfl, by simpa using hfits⟩
      have := h.framed.append hmore
      simpa using this
  · split at hok
    · next hfits =>
        obtain rfl := Except.ok.inj hok
        rw [written_end h.len] at hfits
        refine ⟨⟨h.header, ?_, ?_⟩, rfl, hfits⟩
        · dsimp only
          rw [written_end h.len, h.len, List.length_append]
        · dsimp only
          rw [written_end h.len]
          exact h.framed.append hmore
    · cases hok

/-- What a crash inside an append can leave: the records before it and a prefix of its own. -/
theorem Holds.torn (h : f.Holds env records) {frames : List Bytes}
    (hframes : more.mapM (encodeRecord env) = .ok frames)
    (hfits : (f.disk.bytes ++ frames.flatten).length < 2 ^ 64) (count : Nat) :
    ∃ whole, whole <+: more ∧ Torn env (records ++ whole) (f.disk.bytes ++ frames.flatten.take count) := by
  obtain ⟨whole, front, part, hstarts, hframed, htake, hpart⟩ := (Framed.of_mapM hframes).take count
  refine ⟨whole, hstarts, f.disk.bytes ++ front, part, h.framed.append hframed, by rw [htake]; simp, ?_⟩
  refine hpart.imp id ?_
  rintro ⟨record, frame, n, hframe, hn, hpos, hlt, hle⟩
  refine ⟨record, frame, n, hframe, hn, hpos, hlt, ?_⟩
  simp only [List.length_append] at hfits ⊢
  omega

theorem length_le_of_framed {bytes : Bytes} (h : Framed env records bytes) : records.length ≤ bytes.length := by
  induction h with
  | nil => exact le_rfl
  | cons hframe _ ih =>
      have := length_frame_pos hframe
      rw [List.length_cons, List.length_append]
      omega

/-- Recovery finds the whole records and cuts the rest off. -/
theorem recover_torn (h : Torn env records f.disk.bytes) (hheader : f.disk.header = f.header)
    (hlen : f.len = f.disk.bytes.length) :
    ∃ log f', f.recover env = .ok (log, f') ∧ log.generation = f.header.generation ∧ log.records = records ∧
      f'.Holds env records ∧ f'.header = f.header := by
  obtain ⟨front, part, hframed, hbytes, hpart⟩ := h
  have hfits : (([] : Bytes) ++ (front ++ part)).length < 2 ^ 64 := by
    rw [List.nil_append, ← hbytes]
    exact f.disk.fits
  have hfuel : f.disk.bytes.length = records.length + (f.disk.bytes.length - records.length) := by
    have := length_le_of_framed hframed
    rw [hbytes, List.length_append]
    omega
  have hscan := scan_framed hframed [] part (f.disk.bytes.length - records.length) hfits
  rw [List.nil_append, ← hbytes, ← hfuel, List.length_nil, Nat.zero_add] at hscan
  rcases hpart with rfl | ⟨record, frame, n, hframe, rfl, hpos, hlt, hroom⟩
  · rw [List.append_nil] at hbytes
    rw [show front.length = f.disk.bytes.length by rw [hbytes], scan_end] at hscan
    have hscan' : scan env f.disk.bytes f.disk.bytes.length 0 = .ok (records, none) := by
      rw [hscan]
      simp only [bind, Except.bind, pure, Except.pure, List.append_nil]
    refine ⟨⟨f.header.generation, records, false⟩, f, ?_, rfl, rfl, ⟨hheader, hlen, hbytes ▸ hframed⟩, rfl⟩
    simp only [recover, hscan', bind, Except.bind, pure, Except.pure]
  · have hmore : ∃ fuel, f.disk.bytes.length - records.length = fuel + 1 := by
      refine ⟨f.disk.bytes.length - records.length - 1, ?_⟩
      have := length_le_of_framed hframed
      have hpartLen : (frame.take n).length = n := by rw [List.length_take]; omega
      rw [hbytes, List.length_append, hpartLen]
      omega
    obtain ⟨fuel, hfuel'⟩ := hmore
    have hcut := scan_torn hframe front fuel hpos hlt hroom
    rw [hfuel', hbytes, hcut] at hscan
    have hscan' : scan env f.disk.bytes f.disk.bytes.length 0 = .ok (records, some front.length) := by
      rw [hbytes, hscan]
      simp only [bind, Except.bind, pure, Except.pure, List.append_nil]
    have htake : f.disk.bytes.take front.length = front := by rw [hbytes, List.take_left' rfl]
    refine ⟨⟨f.header.generation, records, true⟩, f.cutTo front.length, by
      simp only [recover, hscan', bind, Except.bind, pure, Except.pure], rfl, rfl, ⟨hheader, ?_, ?_⟩, rfl⟩
    · change front.length = (f.disk.bytes.take front.length).length
      rw [htake]
    · change Framed env records (f.disk.bytes.take front.length)
      rw [htake]
      exact hframed

end WalFile

/-- Records in strictly rising LSN order. -/
def Rising (records : List (WalRecord τ ν)) : Prop := records.Pairwise fun r s => r.lsn < s.lsn

/-- Two lists of the same records, both in strictly rising order, are the same list. -/
theorem eq_of_perm_of_lsn {left right : List (WalRecord τ ν)} (hperm : left.Perm right)
    (hleft : Rising left) (hright : Rising right) :
    left = right := by
  induction left generalizing right with
  | nil => exact (List.nil_perm.mp hperm).symm
  | cons r left ih =>
      cases right with
      | nil => exact absurd hperm (by simp)
      | cons s right =>
          obtain ⟨hr, hleft'⟩ := List.pairwise_cons.mp hleft
          obtain ⟨hs, hright'⟩ := List.pairwise_cons.mp hright
          have heq : r = s := by
            rcases List.mem_cons.mp (hperm.subset List.mem_cons_self) with heq | hmem
            · exact heq
            · rcases List.mem_cons.mp (hperm.symm.subset List.mem_cons_self) with heq | hmem'
              · exact heq.symm
              · exact absurd (hs r hmem) (Nat.lt_asymm (hr s hmem'))
          subst heq
          rw [ih (List.perm_cons r |>.mp hperm) hleft' hright']

/-- Sorting records by LSN puts them in the one strictly rising order they have. -/
theorem insertionSort_lsn {records sorted : List (WalRecord τ ν)} (hperm : records.Perm sorted)
    (hsorted : Rising sorted) :
    (records.insertionSort fun left right => left.lsn ≤ right.lsn) = sorted := by
  have hle : (records.insertionSort fun left right => left.lsn ≤ right.lsn).Pairwise
      fun left right => left.lsn ≤ right.lsn := List.pairwise_insertionSort _ _
  have hperm' : (records.insertionSort fun left right => left.lsn ≤ right.lsn).Perm sorted :=
    (List.perm_insertionSort _ _).trans hperm
  refine eq_of_perm_of_lsn hperm' ?_ hsorted
  have hnodup : (sorted.map WalRecord.lsn).Nodup := by
    rw [List.nodup_iff_pairwise_ne, List.pairwise_map]
    exact hsorted.imp fun h => Nat.ne_of_lt h
  have hne : (records.insertionSort fun left right => left.lsn ≤ right.lsn).Pairwise
      fun left right => left.lsn ≠ right.lsn := by
    have := (hperm'.map WalRecord.lsn).nodup_iff.mpr hnodup
    rwa [List.nodup_iff_pairwise_ne, List.pairwise_map] at this
  exact (hle.and hne).imp fun h => Nat.lt_of_le_of_ne h.1 h.2

/-- The log that takes appends holds `fresh`, the other one `old`. -/
structure WalPair.Holds (env : Env τ ν) (p : WalPair) (old fresh : List (WalRecord τ ν)) : Prop where
  active : (p.file p.active).Holds env fresh
  retired : (p.file (!p.active)).Holds env old
  newest : newest p.a p.b = p.active
  rising : Rising (old ++ fresh)

namespace WalPair

variable {env : Env τ ν} {p p' : WalPair} {old fresh more : List (WalRecord τ ν)}

@[simp] theorem file_setFile_self (p : WalPair) (index : Bool) (f : WalFile) :
    (p.setFile index f).file index = f := by
  cases index <;> rfl

@[simp] theorem file_setFile_other (p : WalPair) (index : Bool) (f : WalFile) :
    (p.setFile index f).file (!index) = p.file (!index) := by
  cases index <;> rfl

@[simp] theorem active_setFile (p : WalPair) (index : Bool) (f : WalFile) :
    (p.setFile index f).active = p.active := by
  cases index <;> rfl

/-- Which log is newest depends on the generations alone. -/
theorem newest_setFile {index : Bool} {f : WalFile} (h : f.header = (p.file index).header) :
    LocalTables.newest (p.setFile index f).a (p.setFile index f).b = LocalTables.newest p.a p.b := by
  cases index
  · have h' : f.header = p.a.header := h
    change decide (p.b.header.generation > f.header.generation) = _
    rw [h']
    rfl
  · have h' : f.header = p.b.header := h
    change decide (f.header.generation > p.a.header.generation) = _
    rw [h']
    rfl

theorem Holds.appendGroup (h : p.Holds env old fresh) {frames : List Bytes}
    (hframes : more.mapM (encodeRecord env) = .ok frames)
    (hrising : Rising (old ++ (fresh ++ more)))
    (hok : p.appendGroup frames = .ok p') : p'.Holds env old (fresh ++ more) := by
  obtain ⟨f, hf, hok⟩ := bind_eq_ok.mp hok
  obtain rfl := Except.ok.inj hok
  obtain ⟨hholds, hheader, -⟩ := h.active.appendGroup hframes hf
  exact ⟨by simpa using hholds, by simpa using h.retired, by simpa using (newest_setFile hheader).trans h.newest,
    hrising⟩

theorem Holds.rotate (h : p.Holds env old fresh) : p.rotate.2.Holds env fresh [] ∧ p.rotate.1 = p.active := by
  have hfresh : Rising (fresh ++ []) := by
    rw [List.append_nil]
    exact (List.pairwise_append.mp h.rising).2.1
  have hactive := h.active
  obtain ⟨a, b, active⟩ := p
  cases active with
  | false =>
      refine ⟨⟨⟨rfl, rfl, .nil⟩, hactive, ?_, hfresh⟩, rfl⟩
      exact decide_eq_true (Nat.lt_succ_self a.header.generation)
  | true =>
      refine ⟨⟨⟨rfl, rfl, .nil⟩, hactive, ?_, hfresh⟩, rfl⟩
      exact decide_eq_false (Nat.not_lt.mpr (Nat.le_succ b.header.generation))

theorem Holds.truncate (h : p.Holds env old fresh) : (p.truncate (!p.active)).Holds env [] fresh := by
  have hheader : (p.file (!p.active)).truncate.header = (p.file (!p.active)).header := rfl
  have hother : (p.setFile (!p.active) (p.file (!p.active)).truncate).file p.active = p.file p.active := by
    cases p.active <;> rfl
  refine ⟨?_, ?_, ?_, (List.pairwise_append.mp h.rising).2.1⟩
  · rw [WalPair.truncate, active_setFile, hother]
    exact h.active
  · rw [WalPair.truncate, active_setFile, file_setFile_self]
    exact ⟨h.retired.header, rfl, .nil⟩
  · rw [WalPair.truncate, newest_setFile hheader, active_setFile]
    exact h.newest

theorem Holds.recover (h : p.Holds env old fresh) : ∃ p', p.recover env = .ok (old ++ fresh, p') := by
  have hone : ∀ {f : WalFile} {records : List (WalRecord τ ν)}, f.Holds env records →
      ∃ log f', f.recover env = .ok (log, f') ∧ log.records = records := by
    intro f records hf
    obtain ⟨log, f', hrec, -, hrecords, -⟩ := WalFile.recover_torn hf.framed.torn hf.header hf.len
    exact ⟨log, f', hrec, hrecords⟩
  obtain ⟨a, b, active⟩ := p
  obtain ⟨left, right, hA, hB, hperm⟩ : ∃ left right, a.Holds env left ∧ b.Holds env right ∧
      (left ++ right).Perm (old ++ fresh) := by
    cases active with
    | false => exact ⟨fresh, old, h.active, h.retired, List.perm_append_comm⟩
    | true => exact ⟨old, fresh, h.retired, h.active, .refl _⟩
  obtain ⟨logA, a', hrecA, hrecordsA⟩ := hone hA
  obtain ⟨logB, b', hrecB, hrecordsB⟩ := hone hB
  refine ⟨⟨a', b', LocalTables.newest a' b'⟩, ?_⟩
  simp only [WalPair.recover, hrecA, hrecB, bind, Except.bind, pure, Except.pure]
  have hlogs : (([logA, logB].insertionSort fun left right => left.generation ≤ right.generation).flatMap
      RecoveredLog.records).Perm (old ++ fresh) := by
    refine ((List.perm_insertionSort _ _).flatMap_right _).trans ?_
    simpa [hrecordsA, hrecordsB] using hperm
  rw [insertionSort_lsn hlogs h.rising]

/-- The pair a crash leaves: the retired log whole, the active one perhaps with part of a record. -/
theorem recover_torn {a b : LogFile} {uuid : List UInt8} {active : Bool}
    (hactive : decide (b.header.generation > a.header.generation) = active)
    (huuid : a.header.tableUuid = uuid ∧ b.header.tableUuid = uuid)
    (hfresh : Torn env fresh (if active then b else a).bytes) (hold : Framed env old (if active then a else b).bytes)
    (hrising : Rising (old ++ fresh)) :
    ∃ opened p, openPair (some a) (some b) uuid = .ok opened ∧ opened.recover env = .ok (old ++ fresh, p) ∧
      p.Holds env old fresh ∧ p.a.header = a.header ∧ p.b.header = b.header := by
  refine ⟨⟨WalFile.openLog a, WalFile.openLog b, newest (WalFile.openLog a) (WalFile.openLog b)⟩, ?_⟩
  have hopen : openPair (some a) (some b) uuid =
      .ok ⟨WalFile.openLog a, WalFile.openLog b, newest (WalFile.openLog a) (WalFile.openLog b)⟩ := by
    simp only [openPair, openOne, huuid.1, huuid.2, ne_eq, not_true_eq_false, if_false, bind, Except.bind, pure,
      Except.pure]
  have hone : ∀ {disk : LogFile} {records : List (WalRecord τ ν)}, Torn env records disk.bytes →
      ∃ log f', (WalFile.openLog disk).recover env = .ok (log, f') ∧ log.records = records ∧
        f'.Holds env records ∧ f'.header = disk.header := by
    intro disk records htorn
    obtain ⟨log, f', hrec, -, hrecords, hholds, hheader⟩ :=
      WalFile.recover_torn (f := WalFile.openLog disk) htorn rfl rfl
    exact ⟨log, f', hrec, hrecords, hholds, hheader⟩
  have hfinish : ∀ {logA logB : RecoveredLog τ ν} {fa fb : WalFile}, (WalFile.openLog a).recover env = .ok (logA, fa) →
      (WalFile.openLog b).recover env = .ok (logB, fb) → (logA.records ++ logB.records).Perm (old ++ fresh) →
      (WalPair.mk (WalFile.openLog a) (WalFile.openLog b) (newest (WalFile.openLog a) (WalFile.openLog b))).recover env =
        .ok (old ++ fresh, ⟨fa, fb, newest fa fb⟩) := by
    intro logA logB fa fb hA hB hperm
    simp only [recover, hA, hB, bind, Except.bind, pure, Except.pure]
    have hlogs : (([logA, logB].insertionSort fun left right => left.generation ≤ right.generation).flatMap
        RecoveredLog.records).Perm (old ++ fresh) := by
      refine ((List.perm_insertionSort _ _).flatMap_right _).trans ?_
      simpa using hperm
    rw [insertionSort_lsn hlogs hrising]
  cases active with
  | false =>
      obtain ⟨logA, fa, hA, hrecsA, hholdsA, hheadA⟩ := hone hfresh
      obtain ⟨logB, fb, hB, hrecsB, hholdsB, hheadB⟩ := hone hold.torn
      have hnewest : newest fa fb = false := by rw [newest, hheadA, hheadB]; exact hactive
      refine ⟨⟨fa, fb, newest fa fb⟩, hopen, hfinish hA hB ?_, ?_, hheadA, hheadB⟩
      · rw [hrecsA, hrecsB]
        exact List.perm_append_comm
      · rw [hnewest]
        exact ⟨hholdsA, hholdsB, hnewest, hrising⟩
  | true =>
      obtain ⟨logA, fa, hA, hrecsA, hholdsA, hheadA⟩ := hone hold.torn
      obtain ⟨logB, fb, hB, hrecsB, hholdsB, hheadB⟩ := hone hfresh
      have hnewest : newest fa fb = true := by rw [newest, hheadA, hheadB]; exact hactive
      refine ⟨⟨fa, fb, newest fa fb⟩, hopen, hfinish hA hB (by rw [hrecsA, hrecsB]), ?_, hheadA, hheadB⟩
      rw [hnewest]
      exact ⟨hholdsB, hholdsA, hnewest, hrising⟩

end WalPair

end LocalTables
