import Mathlib.Logic.Relation
import LocalTables.Wal.Recover

/-! Appends that fail. A failed append leaves what reached the file behind the end the handle knows, and the next append
writes over it from there on. What an earlier failure left behind the bytes of a later append stays in the file, and when it
happens to start at a frame boundary recovery reads it as if it had been acknowledged. -/

namespace LocalTables

variable {τ ν : Type}

/-- Recovery that has come to this offset stops there. -/
structure Ends (env : Env τ ν) (offset : Nat) (tail : Bytes) : Prop where
  none : ∀ record frame, WellFormed env record frame → ¬frame <+: tail
  small : ∀ len, Frame.peekLen env.checksum tail Frame.walRec "wal record" = .ok len →
    offset + (Frame.headerLen + len) % 2 ^ 64 < 2 ^ 64

theorem ends_short {env : Env τ ν} {offset : Nat} {tail : Bytes} (h : tail.length < Frame.headerLen) : Ends env offset tail := by
  constructor
  · intro record frame hframe hstarts
    have := hframe.length
    have := hstarts.length_le
    omega
  · intro len hpeek
    obtain ⟨e, he⟩ : ∃ e, Frame.peekLen env.checksum tail Frame.walRec "wal record" = .error e := Frame.peekLen_short _ h
    rw [he] at hpeek
    cases hpeek

/-- Recovery of whole records up to where a log ends. -/
theorem WalFile.recover_ends {env : Env τ ν} {disk : LogFile} {records : List (WalRecord τ ν)} {front tail : Bytes}
    (h : Recorded env records front) (hbytes : disk.bytes = front ++ tail) (hends : Ends env front.length tail) :
    ∃ log f, (openLog disk).recover env = .ok (log, f) ∧ log.records = records := by
  have hfits := disk.fits
  have hlongest : Longest env disk.bytes records front := by
    rw [hbytes] at hfits ⊢
    exact h.longest hfits hends.none
  have htame : ¬Wraps env disk.bytes := by
    by_cases hmore : tail = []
    · rw [hmore, List.append_nil] at hbytes
      rw [hbytes] at hfits ⊢
      exact h.not_wraps hfits
    · intro hwraps
      have hsmall := hends.small
      rw [← Nat.zero_add front.length] at hsmall
      have hscanned : Scanned env disk.bytes 0 (.ok (records, some (0 + front.length))) :=
        .stops h (by rw [List.drop_zero, hbytes]) hmore hends.none hsmall
      cases hscanned.aborts hfits hwraps
  obtain ⟨records', front', truncated, f, hlongest', hrecover, -⟩ := recover_reads htame
  exact ⟨_, f, hrecover, (hlongest'.unique hlongest).1⟩

/-- The frames that lie wholly within the first `count` bytes of a group. -/
def wholeFrames : List Bytes → Nat → List Bytes
  | [], _ => []
  | frame :: frames, count => if frame.length ≤ count then frame :: wholeFrames frames (count - frame.length) else []

theorem wholeFrames_all {frames : List Bytes} {count : Nat} (h : frames.flatten.length ≤ count) :
    wholeFrames frames count = frames := by
  induction frames generalizing count with
  | nil => rfl
  | cons frame frames ih =>
      rw [List.flatten_cons, List.length_append] at h
      rw [wholeFrames, if_pos (by omega), ih (by omega)]

theorem wholeFrames_prefix (frames : List Bytes) (count : Nat) :
    (wholeFrames frames count).flatten <+: frames.flatten.take count := by
  induction frames generalizing count with
  | nil => exact List.nil_prefix
  | cons frame frames ih =>
      rw [wholeFrames]
      split
      · next hwhole =>
          rw [List.flatten_cons, List.flatten_cons, List.take_append, List.take_of_length_le hwhole]
          exact (List.prefix_append_right_inj _).mpr (ih _)
      · exact List.nil_prefix

/-- The whole frames hold the first records of the group. -/
theorem Recorded.of_wholeFrames {env : Env τ ν} {records : List (WalRecord τ ν)} {frames : List Bytes}
    (h : records.mapM (encodeRecord env) = .ok frames) (count : Nat) :
    ∃ whole, whole <+: records ∧ Recorded env whole (wholeFrames frames count).flatten := by
  induction records generalizing frames count with
  | nil =>
      obtain rfl := Except.ok.inj h
      exact ⟨[], List.prefix_rfl, .nil⟩
  | cons record records ih =>
      rw [List.mapM_cons] at h
      obtain ⟨frame, hframe, h⟩ := bind_eq_ok.mp h
      obtain ⟨rest, hrest, h⟩ := bind_eq_ok.mp h
      obtain rfl := Except.ok.inj h
      rw [wholeFrames]
      split
      · obtain ⟨whole, hstarts, hrecorded⟩ := ih hrest (count - frame.length)
        obtain ⟨payload, rfl, hrecord, -⟩ := encodeRecord_ok hframe
        exact ⟨record :: whole, List.cons_prefix_cons.mpr ⟨rfl, hstarts⟩, .cons ⟨payload, rfl, hrecord⟩ hrecorded⟩
      · exact ⟨[], List.nil_prefix, .nil⟩

/-- An open log file, what it has been asked to hold and what it has refused since. -/
structure Appended (τ ν : Type) where
  file : WalFile
  /-- Records of the successful calls, in order, behind those the file started with. -/
  acked : List (WalRecord τ ν)
  /-- The groups of the failed calls since the last successful one. -/
  failed : List (List (WalRecord τ ν))

/-- One call of `append_group`. It fails after any number of its bytes have reached the file, or succeeds. -/
inductive Appended.Step (env : Env τ ν) (allows : WalFile → List Bytes → Nat → Prop) : Appended τ ν → Appended τ ν → Prop where
  | acknowledged {s : Appended τ ν} {records : List (WalRecord τ ν)} {frames : List Bytes} {file : WalFile}
      (hframes : records.mapM (encodeRecord env) = .ok frames) (hok : s.file.appendGroup frames = .ok file)
      (hallows : allows s.file frames frames.flatten.length) :
      Step env allows s ⟨file, s.acked ++ records, []⟩
  | failed {s : Appended τ ν} {records : List (WalRecord τ ν)} {frames : List Bytes} {reached : Nat}
      (hframes : records.mapM (encodeRecord env) = .ok frames) (hne : frames ≠ [])
      (hreached : reached ≤ frames.flatten.length)
      (hfits : (s.file.written (frames.flatten.take reached)).length < 2 ^ 64)
      (hallows : allows s.file frames reached) :
      Step env allows s ⟨{ s.file with
        disk := { s.file.disk with bytes := s.file.written (frames.flatten.take reached), fits := hfits } },
        s.acked, s.failed ++ [records]⟩

/-- Any number of calls. -/
def Appended.Run (env : Env τ ν) (allows : WalFile → List Bytes → Nat → Prop) : Appended τ ν → Appended τ ν → Prop :=
  Relation.ReflTransGen (Appended.Step env allows)

/-- Behind the whole frames of the group that reach the file, what is left of the group and what an earlier failure left
behind it do not make another whole frame. -/
def CleanEnd (env : Env τ ν) (f : WalFile) (frames : List Bytes) (reached : Nat) : Prop :=
  let whole := (wholeFrames frames reached).flatten.length
  Ends env (f.len + whole) ((frames.flatten.take reached).drop whole ++ f.disk.bytes.drop (f.len + reached))

/-- After a crash the log holds what was acknowledged, and then no more than the first records of a call that failed
since. -/
def Appended.Recovers (env : Env τ ν) (s : Appended τ ν) : Prop :=
  ∃ log f more, (WalFile.openLog s.file.disk).recover env = .ok (log, f) ∧ log.records = s.acked ++ more ∧
    (more = [] ∨ ∃ records ∈ s.failed, more <+: records)

/-- The file holds the acknowledged records, the first records of a failed call and an end. -/
structure Appended.Right (env : Env τ ν) (s : Appended τ ν) : Prop where
  leaves : ∃ front whole tail more, s.file.disk.bytes = front ++ (whole ++ tail) ∧ front.length = s.file.len ∧
    Recorded env s.acked front ∧ Recorded env more whole ∧ Ends env (s.file.len + whole.length) tail ∧
    (more = [] ∨ ∃ records ∈ s.failed, more <+: records)

namespace Appended

variable {env : Env τ ν} {s s' : Appended τ ν}

theorem Right.recovers (h : s.Right env) : s.Recovers env := by
  obtain ⟨front, whole, tail, more, hbytes, hlen, hacked, hmore, hends, hfailed⟩ := h.leaves
  rw [← hlen, ← List.length_append] at hends
  rw [← List.append_assoc] at hbytes
  obtain ⟨log, f, hrecover, hrecords⟩ := WalFile.recover_ends (hacked.append hmore) hbytes hends
  exact ⟨log, f, more, hrecover, hrecords, hfailed⟩

/-- What the file holds once a write behind the acknowledged records has reached it. -/
theorem written_front {f : WalFile} {front rest : Bytes} (hbytes : f.disk.bytes = front ++ rest)
    (hlen : front.length = f.len) (joined : Bytes) :
    f.written joined = front ++ (joined ++ f.disk.bytes.drop (f.len + joined.length)) := by
  have hshort : f.len - f.disk.bytes.length = 0 := by
    rw [hbytes, List.length_append]
    omega
  have htake : f.disk.bytes.take f.len = front := by rw [hbytes, ← hlen, List.take_left' rfl]
  rw [WalFile.written, hshort, htake, List.replicate_zero, List.append_nil, List.append_assoc]

theorem Step.right (h : Step env (CleanEnd env) s s') (hright : s.Right env) : s'.Right env := by
  obtain ⟨front, whole, tail, more, hbytes, hlen, hacked, -, -, -⟩ := hright.leaves
  cases h with
  | @acknowledged records frames file hframes hok hclean =>
      have hrecords := (Framed.of_mapM hframes).recorded
      have hends : Ends env (s.file.len + frames.flatten.length) (s.file.disk.bytes.drop (s.file.len + frames.flatten.length)) := by
        have hclean' := hclean
        rw [CleanEnd, wholeFrames_all le_rfl, List.take_length, List.drop_length, List.nil_append] at hclean'
        exact hclean'
      have hstate : file.disk.bytes = front ++ (frames.flatten ++ s.file.disk.bytes.drop (s.file.len + frames.flatten.length)) ∧
          file.len = s.file.len + frames.flatten.length := by
        unfold WalFile.appendGroup at hok
        split at hok
        · next hnone =>
            obtain rfl := Except.ok.inj hok
            rw [List.isEmpty_iff] at hnone
            subst hnone
            refine ⟨?_, rfl⟩
            rw [List.flatten_nil, List.nil_append, List.length_nil, Nat.add_zero, hbytes, ← hlen, List.drop_left' rfl]
        · split at hok
          · obtain rfl := Except.ok.inj hok
            exact ⟨written_front hbytes hlen _, rfl⟩
          · cases hok
      refine ⟨front ++ frames.flatten, [], s.file.disk.bytes.drop (s.file.len + frames.flatten.length), [], ?_, ?_,
        hacked.append hrecords, .nil, ?_, .inl rfl⟩
      · rw [hstate.1, List.nil_append, List.append_assoc]
      · rw [hstate.2, List.length_append, hlen]
      · change Ends env (file.len + 0) _
        rw [hstate.2]
        exact hends
  | @failed records frames reached hframes hne hreached hfits hclean =>
      obtain ⟨more', hstarts, hrecorded⟩ := Recorded.of_wholeFrames hframes reached
      obtain ⟨part, hpart⟩ := wholeFrames_prefix frames reached
      have hcount : (frames.flatten.take reached).length = reached := by
        rw [List.length_take]
        omega
      rw [CleanEnd, ← hpart, List.drop_left' rfl] at hclean
      refine ⟨front, (wholeFrames frames reached).flatten, part ++ s.file.disk.bytes.drop (s.file.len + reached), more',
        ?_, hlen, hacked, hrecorded, hclean, .inr ⟨records, by simp, hstarts⟩⟩
      change s.file.written (frames.flatten.take reached) = _
      rw [written_front hbytes hlen, hcount, ← hpart, List.append_assoc]

/-- Appends that fail lose and bring back nothing, as long as what a failure leaves behind never lines up with the end of a
later append. -/
theorem failed_appends_stay_behind {f : WalFile} {records : List (WalRecord τ ν)} (hfile : f.Reads env records)
    (h : Run env (CleanEnd env) ⟨f, records, []⟩ s) : s.Recovers env := by
  refine Right.recovers ?_
  induction h with
  | refl =>
      refine ⟨f.disk.bytes, [], [], [], by simp, hfile.len.symm, hfile.recorded, .nil, ends_short (by decide), .inl rfl⟩
  | tail _ hstep ih => exact hstep.right ih

end Appended

section Leftover

def insertRecord (lsn value : Nat) : WalRecord Unit Nat := .insert lsn (lsn - 1) ⟨[()], [[value]]⟩

def emptyLog : WalFile := WalFile.create ⟨1, []⟩

/-- A log after an append of these records failed with so many bytes written. -/
def failedLog (records : List (WalRecord Unit Nat)) (reached : Nat)
    (h : (emptyLog.written ((framesOf records).flatten.take reached)).length < 2 ^ 64) : WalFile :=
  { emptyLog with disk := { emptyLog.disk with
      bytes := emptyLog.written ((framesOf records).flatten.take reached)
      fits := h } }

theorem failedLog_appends {records : List (WalRecord Unit Nat)} {reached : Nat} {allows : WalFile → List Bytes → Nat → Prop}
    {h : (emptyLog.written ((framesOf records).flatten.take reached)).length < 2 ^ 64} {record : WalRecord Unit Nat}
    {file : WalFile} (hframes : records.mapM (encodeRecord logEnv) = .ok (framesOf records)) (hne : framesOf records ≠ [])
    (hreached : reached ≤ (framesOf records).flatten.length)
    (hallows : allows emptyLog (framesOf records) reached)
    (hrecord : [record].mapM (encodeRecord logEnv) = .ok (framesOf [record]))
    (hok : (failedLog records reached h).appendGroup (framesOf [record]) = .ok file)
    (hallows' : allows (failedLog records reached h) (framesOf [record]) (framesOf [record]).flatten.length) :
    Appended.Run logEnv allows ⟨emptyLog, [], []⟩ ⟨file, [record], []⟩ :=
  .tail (.tail .refl (.failed hframes hne hreached h hallows)) (.acknowledged hrecord hok hallows')

def halfWritten : WalFile := failedLog [insertRecord 1 7] 10 (by decide +kernel)

theorem halfWritten_appended : ∃ file, halfWritten.appendGroup (framesOf [insertRecord 2 8]) = .ok file := by
  have hok : (match halfWritten.appendGroup (framesOf [insertRecord 2 8]) with
      | .ok _ => true
      | .error _ => false) = true := by decide +kernel
  cases h : halfWritten.appendGroup (framesOf [insertRecord 2 8]) with
  | ok file => exact ⟨file, rfl⟩
  | error e =>
      rw [h] at hok
      cases hok

/-- Half a record that did not make it, and a whole one written over it. -/
theorem half_record_written_over : ∃ file, halfWritten.appendGroup (framesOf [insertRecord 2 8]) = .ok file ∧
    Appended.Recovers logEnv ⟨file, [insertRecord 2 8], []⟩ := by
  obtain ⟨file, hfile⟩ := halfWritten_appended
  refine ⟨file, hfile, Appended.failed_appends_stay_behind (f := emptyLog) ⟨rfl, rfl, .nil⟩ ?_⟩
  refine failedLog_appends (by decide +kernel) (by decide +kernel) (by decide +kernel) ?_ (by decide +kernel) hfile ?_
  · exact ends_short (by decide +kernel)
  · exact ends_short (by decide +kernel)

def twoWritten : WalFile := failedLog [insertRecord 1 7, insertRecord 2 8] 80 (by decide +kernel)

/-- The first of two failed records is written over by a record as long as it is, and the second comes back behind that. -/
theorem leftover_record_comes_back : ∃ s, Appended.Run logEnv (fun _ _ _ => True) ⟨emptyLog, [], []⟩ s ∧
    ¬s.Recovers logEnv := by
  have hwrong : (match twoWritten.appendGroup (framesOf [insertRecord 3 9]) with
      | .ok file =>
          match (WalFile.openLog file.disk).recover logEnv with
          | .ok (log, _) => decide (log.records = [insertRecord 3 9, insertRecord 2 8])
          | .error _ => false
      | .error _ => false) = true := by decide +kernel
  cases hfile : twoWritten.appendGroup (framesOf [insertRecord 3 9]) with
  | error e =>
      rw [hfile] at hwrong
      cases hwrong
  | ok file =>
      rw [hfile] at hwrong
      refine ⟨⟨file, [insertRecord 3 9], []⟩, failedLog_appends (by decide +kernel) (by decide +kernel)
        (by decide +kernel) trivial (by decide +kernel) hfile trivial, ?_⟩
      rintro ⟨log, f, more, hrecover, hrecords, hmore⟩
      simp only [hrecover, decide_eq_true_eq, hrecords] at hwrong
      rcases hmore with rfl | ⟨records, hmem, -⟩
      · revert hwrong
        decide
      · cases hmem

end Leftover

end LocalTables
