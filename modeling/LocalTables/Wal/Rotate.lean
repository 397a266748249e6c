import Mathlib.Tactic.MkIffOfInductiveProp
import LocalTables.Wal.Recover

/-! The bytes of a whole log file, header included (`wal/file.rs`), and what a crash leaves of a log that is being written
anew. A rotation and the creation of a missing log both empty the file before they write its header, and a file shorter than a
header does not open. -/

namespace LocalTables

variable {τ ν : Type}

theorem ofLe_leBytes_mod (n : Nat) : ofLe (leBytes n) = n % 2 ^ 64 := by
  simp only [ofLe, leBytes, List.range_succ, List.range_zero, List.nil_append, List.cons_append, List.map_cons,
    List.map_nil, List.foldr_cons, List.foldr_nil, UInt8.toNat_ofNat']
  omega

/-- The tag of a log file. -/
def Frame.walFile : Nat := Frame.tagOf "LTWALHDR"

/-- Bytes at the start of a log file, before the first record. -/
def walHeaderLen : Nat := 64

namespace WalHeader

variable (checksum : Bytes → UInt64)

/-- The 40 bytes the header checksum covers. -/
def head (header : WalHeader) : Bytes :=
  leBytes Frame.walFile ++ (leBytes formatVersion).take 4 ++ List.replicate 4 0 ++ leBytes header.generation ++ header.tableUuid

def encode (header : WalHeader) : Bytes :=
  header.head ++ leBytes (checksum header.head).toNat ++ List.replicate 16 0

def decode (bytes : Bytes) : Except Error WalHeader :=
  if bytes.length < walHeaderLen then .error (.corrupt "write-ahead log header is truncated")
  else
    let stored := ofLe ((bytes.drop 40).take 8)
    let found := (checksum (bytes.take 40)).toNat
    if found ≠ stored then .error (.checksum "wal header" stored found)
    else if ofLe (bytes.take 8) ≠ Frame.walFile then .error (.badMagic "this file is not a write-ahead log")
    else
      let version := ofLe ((bytes.drop 8).take 4)
      if version ≠ formatVersion then
        .error (.unsupported s!"write-ahead log format version {version}, this build reads {formatVersion}")
      else .ok ⟨ofLe ((bytes.drop 16).take 8), (bytes.drop 24).take 16⟩

variable {checksum} {header : WalHeader}

theorem length_head (h : header.tableUuid.length = 16) : header.head.length = 40 := by
  simp [head, h]

theorem length_encode (h : header.tableUuid.length = 16) : (header.encode checksum).length = walHeaderLen := by
  simp [encode, length_head h, walHeaderLen]

/-- A header reads back, its generation as a `u64`. -/
theorem decode_encode (checksum : Bytes → UInt64) (h : header.tableUuid.length = 16) :
    decode checksum (header.encode checksum) = .ok ⟨header.generation % 2 ^ 64, header.tableUuid⟩ := by
  have hhead : (header.encode checksum).take 40 = header.head := by
    rw [encode, List.append_assoc, List.take_left' (length_head h)]
  have hsum : ((header.encode checksum).drop 40).take 8 = leBytes (checksum header.head).toNat := by
    rw [encode, List.append_assoc, List.drop_left' (length_head h), List.take_left' (length_leBytes _)]
  have hpiece : ∀ start n, start + n ≤ 40 → ((header.encode checksum).drop start).take n = (header.head.drop start).take n := by
    intro start n hn
    have : header.head.length = 40 := length_head h
    rw [encode, List.append_assoc, List.drop_append_of_le_length (by omega),
      List.take_append_of_le_length (by rw [List.length_drop]; omega)]
  have hmagic : (header.encode checksum).take 8 = leBytes Frame.walFile := by
    have := hpiece 0 8 (by decide)
    rw [List.drop_zero, List.drop_zero] at this
    rw [this, head, List.append_assoc, List.append_assoc, List.append_assoc, List.take_left' (length_leBytes _)]
  have hversion : ((header.encode checksum).drop 8).take 4 = (leBytes formatVersion).take 4 := by
    rw [hpiece 8 4 (by decide), head, List.append_assoc, List.append_assoc, List.append_assoc,
      List.drop_left' (length_leBytes _), List.take_left' (by simp)]
  have hgeneration : ((header.encode checksum).drop 16).take 8 = leBytes header.generation := by
    rw [hpiece 16 8 (by decide), head, List.append_assoc, List.drop_left' (by simp), List.take_left' (length_leBytes _)]
  have huuid : ((header.encode checksum).drop 24).take 16 = header.tableUuid := by
    rw [hpiece 24 16 (by decide), head, List.drop_left' (by simp), List.take_of_length_le (by rw [h])]
  have hlong : ¬(header.encode checksum).length < walHeaderLen := by rw [length_encode h]; exact lt_irrefl _
  have hbound := (checksum header.head).toNat_lt
  have hv : ofLe ((leBytes formatVersion).take 4) = formatVersion := by decide
  have hm : ofLe (leBytes Frame.walFile) = Frame.walFile := ofLe_leBytes (by decide)
  rw [decode, if_neg hlong]
  simp only [hhead, hsum, hmagic, hversion, hgeneration, huuid, ofLe_leBytes hbound, hv, hm, ofLe_leBytes_mod, ne_eq,
    not_true_eq_false, if_false]

end WalHeader

/-- The bytes of a whole log file. -/
def LogFile.raw (checksum : Bytes → UInt64) (disk : LogFile) : Bytes := disk.header.encode checksum ++ disk.bytes

/-- Open an existing log file from its bytes. -/
def WalFile.openRaw (checksum : Bytes → UInt64) (content : Bytes) : Except Error WalFile := do
  if content.length < walHeaderLen then throw (.io "failed to fill whole buffer")
  let header ← WalHeader.decode checksum (content.take walHeaderLen)
  if h : (content.drop walHeaderLen).length < 2 ^ 64 then
    return WalFile.openLog ⟨header, content.drop walHeaderLen, h⟩
  else throw (.io "file too large")

namespace WalPair

/-- Open one log, creating it when it is missing. -/
def openRawOne (checksum : Bytes → UInt64) (content : Option Bytes) (tableUuid : List UInt8) : Except Error WalFile := do
  match content with
  | none => return WalFile.create ⟨0, tableUuid⟩
  | some content =>
      let file ← WalFile.openRaw checksum content
      if file.header.tableUuid ≠ tableUuid then throw (.corrupt "the path is a log for a different table")
      else return file

/-- Open both logs from their bytes. -/
def openRaw (checksum : Bytes → UInt64) (a b : Option Bytes) (tableUuid : List UInt8) : Except Error WalPair := do
  let a ← openRawOne checksum a tableUuid
  let b ← openRawOne checksum b tableUuid
  return ⟨a, b, newest a b⟩

end WalPair

section Open

variable {checksum : Bytes → UInt64} {uuid : List UInt8} {disk : LogFile}

/-- A log file of this table, with a generation that fits its field. -/
@[mk_iff]
structure LogFile.Of (uuid : List UInt8) (disk : LogFile) : Prop where
  tableUuid : disk.header.tableUuid = uuid
  generation : disk.header.generation < 2 ^ 64

theorem openRawOne_encode (huuid : uuid.length = 16) (generation : Nat) (bytes : Bytes) (hfits : bytes.length < 2 ^ 64) :
    WalPair.openRawOne checksum (some (WalHeader.encode checksum ⟨generation, uuid⟩ ++ bytes)) uuid =
      .ok (WalFile.openLog ⟨⟨generation % 2 ^ 64, uuid⟩, bytes, hfits⟩) := by
  have hlen : (WalHeader.encode checksum ⟨generation, uuid⟩).length = walHeaderLen := WalHeader.length_encode huuid
  have hlong : ¬(WalHeader.encode checksum ⟨generation, uuid⟩ ++ bytes).length < walHeaderLen := by
    rw [List.length_append, hlen]
    omega
  have hdecode : WalHeader.decode checksum (WalHeader.encode checksum ⟨generation, uuid⟩) =
      .ok ⟨generation % 2 ^ 64, uuid⟩ := WalHeader.decode_encode checksum huuid
  simp only [WalPair.openRawOne, WalFile.openRaw, hlong, if_false, List.take_left' hlen, hdecode, List.drop_left' hlen,
    hfits, dif_pos, bind, Except.bind, pure, Except.pure, WalFile.openLog, ne_eq, not_true_eq_false]

/-- A log of the table opens as what it is. -/
theorem openRawOne_raw (huuid : uuid.length = 16) (h : disk.Of uuid) :
    WalPair.openRawOne checksum (some (disk.raw checksum)) uuid = .ok (WalFile.openLog disk) := by
  obtain ⟨⟨generation, tableUuid⟩, bytes, fits⟩ := disk
  obtain ⟨rfl, hgeneration⟩ := h
  rw [LogFile.raw, openRawOne_encode huuid generation bytes fits, Nat.mod_eq_of_lt hgeneration]

theorem openRawOne_short {content : Bytes} (h : content.length < walHeaderLen) :
    ∃ e, WalPair.openRawOne checksum (some content) uuid = .error e := by
  refine ⟨.io "failed to fill whole buffer", ?_⟩
  simp only [WalPair.openRawOne, WalFile.openRaw, h, if_true, bind, Except.bind, throw, throwThe, MonadExceptOf.throw]

end Open

namespace WalPair

variable {env : Env τ ν} {p p' : WalPair} {left right : List (WalRecord τ ν)}

/-- Both logs hold well-formed frames of these records. -/
structure Reads (env : Env τ ν) (p : WalPair) (left right : List (WalRecord τ ν)) : Prop where
  a : p.a.Reads env left
  b : p.b.Reads env right

/-- Recovery of two opened logs in which nothing wraps around. -/
theorem recover_opened {a b : LogFile} (active : Bool) (ha : ¬Wraps env a.bytes) (hb : ¬Wraps env b.bytes) :
    ∃ left frontA right frontB records p, Longest env a.bytes left frontA ∧ Longest env b.bytes right frontB ∧
      (WalPair.mk (WalFile.openLog a) (WalFile.openLog b) active).recover env = .ok (records, p) ∧
      records.Perm (left ++ right) ∧ p.Reads env left right ∧ p.a.header = a.header ∧ p.b.header = b.header := by
  obtain ⟨left, frontA, cutA, fa, hlongA, hrecA, hreadsA, -, hheadA⟩ := WalFile.recover_reads ha
  obtain ⟨right, frontB, cutB, fb, hlongB, hrecB, hreadsB, -, hheadB⟩ := WalFile.recover_reads hb
  have hrecover : ∃ records, (WalPair.mk (WalFile.openLog a) (WalFile.openLog b) active).recover env =
      .ok (records, ⟨fa, fb, newest fa fb⟩) ∧ records.Perm (left ++ right) := by
    simp only [recover, hrecA, hrecB, bind, Except.bind, pure, Except.pure]
    refine ⟨_, rfl, (List.perm_insertionSort _ _).trans (((List.perm_insertionSort _ _).flatMap_right _).trans ?_)⟩
    simp
  obtain ⟨records, hrecords, hperm⟩ := hrecover
  exact ⟨left, frontA, right, frontB, records, ⟨fa, fb, newest fa fb⟩, hlongA, hlongB, hrecords, hperm,
    ⟨hreadsA, hreadsB⟩, hheadA, hheadB⟩

theorem Reads.appendGroup {more : List (WalRecord τ ν)} {frames : List Bytes} (h : p.Reads env left right)
    (hframes : more.mapM (encodeRecord env) = .ok frames) (hok : p.appendGroup frames = .ok p') :
    ∃ left' right', p'.Reads env left' right' ∧ (left' ++ right').Perm (left ++ right ++ more) ∧
      p'.a.header = p.a.header ∧ p'.b.header = p.b.header := by
  obtain ⟨f, hf, hok⟩ := bind_eq_ok.mp hok
  obtain rfl := Except.ok.inj hok
  obtain ⟨a, b, active⟩ := p
  cases active with
  | false =>
      obtain ⟨hreads, hheader⟩ := h.a.appendGroup hframes hf
      refine ⟨left ++ more, right, ⟨hreads, h.b⟩, ?_, hheader, rfl⟩
      rw [List.append_assoc, List.append_assoc]
      exact List.perm_append_comm.append_left left
  | true =>
      obtain ⟨hreads, hheader⟩ := h.b.appendGroup hframes hf
      refine ⟨left, right ++ more, ⟨h.a, hreads⟩, ?_, rfl, hheader⟩
      rw [List.append_assoc]

end WalPair

/-- A log that is being written anew: by a rotation, or because opening the pair found it missing. -/
inductive Renewal where
  | rotate (p : WalPair)
  | create (index : Bool) (other : Option LogFile)

namespace Renewal

/-- Which log is written anew. -/
def index : Renewal → Bool
  | rotate p => !p.active
  | create index _ => index

/-- The log that is written anew, as it was. -/
def old : Renewal → Option LogFile
  | rotate p => some (p.file (!p.active)).disk
  | create _ _ => none

/-- The log nothing happens to. -/
def other : Renewal → Option LogFile
  | rotate p => some (p.file p.active).disk
  | create _ other => other

/-- The header that is written. -/
def header (uuid : List UInt8) : Renewal → WalHeader
  | rotate p => { (p.file (!p.active)).header with generation := (p.file p.active).header.generation + 1 }
  | create _ _ => ⟨0, uuid⟩

end Renewal

/-- Where a crash hits: before the file is emptied, or with so many bytes of the new header written. -/
inductive CrashPoint where
  | before
  | within (written : Nat)
  deriving DecidableEq

/-- The bytes of the log that is written anew after the crash. -/
def Renewal.crashed (checksum : Bytes → UInt64) (uuid : List UInt8) (r : Renewal) : CrashPoint → Option Bytes
  | .before => r.old.map (LogFile.raw checksum)
  | .within written => some (((r.header uuid).encode checksum).take written)

/-- The bytes of both logs after the crash. -/
def Renewal.left (checksum : Bytes → UInt64) (uuid : List UInt8) (r : Renewal) (point : CrashPoint) :
    Option Bytes × Option Bytes :=
  let renewed := r.crashed checksum uuid point
  let other := r.other.map (LogFile.raw checksum)
  if r.index then (other, renewed) else (renewed, other)

/-- The logs belong to the table, and an open pair knows their headers. -/
structure Renewal.Of (uuid : List UInt8) (r : Renewal) : Prop where
  wide : uuid.length = 16
  old : ∀ disk ∈ r.old, disk.Of uuid
  other : ∀ disk ∈ r.other, disk.Of uuid
  header : (r.header uuid).tableUuid = uuid

/-- A recovered pair in use: groups of records are appended, and at any time both files are opened again and recovered. -/
inductive WalPair.Used (env : Env τ ν) (uuid : List UInt8) (p : WalPair) (records : List (WalRecord τ ν)) :
    WalPair → List (WalRecord τ ν) → Prop where
  | start : Used env uuid p records p records
  | append {q q' : WalPair} {held : List (WalRecord τ ν)} (more : List (WalRecord τ ν)) {frames : List Bytes}
      (h : Used env uuid p records q held) (hframes : more.mapM (encodeRecord env) = .ok frames)
      (hok : q.appendGroup frames = .ok q') : Used env uuid p records q' (held ++ more)
  | reopen {q opened q' : WalPair} {held found : List (WalRecord τ ν)} (h : Used env uuid p records q held)
      (hopen : WalPair.openRaw env.checksum (some (q.a.disk.raw env.checksum)) (some (q.b.disk.raw env.checksum)) uuid =
        .ok opened)
      (hrecover : opened.recover env = .ok (found, q')) : Used env uuid p records q' held

/-- Recovering the opened pair succeeds and gives every record of this log, and what is appended from then on is read back by
every later recovery, whatever was appended, opened and recovered before it. -/
def WalPair.Resumes (env : Env τ ν) (uuid : List UInt8) (opened : WalPair) (other : Option LogFile) : Prop :=
  ∃ records p, opened.recover env = .ok (records, p) ∧
    (∀ disk ∈ other, ∀ kept front, Longest env disk.bytes kept front → kept.Subperm records) ∧
    ∀ q held, WalPair.Used env uuid p records q held →
      ∃ reopened found q',
        WalPair.openRaw env.checksum (some (q.a.disk.raw env.checksum)) (some (q.b.disk.raw env.checksum)) uuid =
          .ok reopened ∧
        reopened.recover env = .ok (found, q') ∧ found.Perm held

/-- Opening both logs after the crash succeeds, and the table goes on with them. -/
def Renewal.Resumes (env : Env τ ν) (uuid : List UInt8) (r : Renewal) (point : CrashPoint) : Prop :=
  ∃ opened, WalPair.openRaw env.checksum (r.left env.checksum uuid point).1 (r.left env.checksum uuid point).2 uuid =
    .ok opened ∧ opened.Resumes env uuid r.other

section Resumes

variable {env : Env τ ν} {uuid : List UInt8}

theorem openRaw_raw {a b : LogFile} (huuid : uuid.length = 16) (ha : a.Of uuid) (hb : b.Of uuid) :
    WalPair.openRaw env.checksum (some (a.raw env.checksum)) (some (b.raw env.checksum)) uuid =
      .ok ⟨WalFile.openLog a, WalFile.openLog b, newest (WalFile.openLog a) (WalFile.openLog b)⟩ := by
  simp only [WalPair.openRaw, openRawOne_raw huuid ha, openRawOne_raw huuid hb, bind, Except.bind, pure, Except.pure]

/-- Both logs of a pair hold these records and nothing else, under headers of the table. -/
structure WalPair.Keeps (env : Env τ ν) (uuid : List UInt8) (q : WalPair) (held : List (WalRecord τ ν)) : Prop where
  reads : ∃ left right, q.Reads env left right ∧ (left ++ right).Perm held
  a : q.a.header.tableUuid = uuid ∧ q.a.header.generation < 2 ^ 64
  b : q.b.header.tableUuid = uuid ∧ q.b.header.generation < 2 ^ 64

namespace WalPair

variable {p q q' : WalPair} {records held : List (WalRecord τ ν)}

theorem Keeps.appendGroup {more : List (WalRecord τ ν)} {frames : List Bytes} (h : q.Keeps env uuid held)
    (hframes : more.mapM (encodeRecord env) = .ok frames) (hok : q.appendGroup frames = .ok q') :
    q'.Keeps env uuid (held ++ more) := by
  obtain ⟨left, right, hreads, hperm⟩ := h.reads
  obtain ⟨left', right', hreads', hperm', ha, hb⟩ := hreads.appendGroup hframes hok
  refine ⟨⟨left', right', hreads', hperm'.trans (hperm.append_right more)⟩, ?_, ?_⟩
  · rw [ha]
    exact h.a
  · rw [hb]
    exact h.b

/-- Its files open, and recovery gives what they hold. -/
theorem Keeps.reopens (huuid : uuid.length = 16) (h : q.Keeps env uuid held) : ∃ opened found q',
    WalPair.openRaw env.checksum (some (q.a.disk.raw env.checksum)) (some (q.b.disk.raw env.checksum)) uuid = .ok opened ∧
      opened.recover env = .ok (found, q') ∧ found.Perm held ∧ q'.Keeps env uuid held := by
  obtain ⟨left, right, hreads, hperm⟩ := h.reads
  have hofA : q.a.disk.Of uuid := by
    rw [LogFile.of_iff, hreads.a.header]
    exact h.a
  have hofB : q.b.disk.Of uuid := by
    rw [LogFile.of_iff, hreads.b.header]
    exact h.b
  obtain ⟨left', frontA, right', frontB, found, q', hlongA, hlongB, hrecover, hfound, hreads', hheadA, hheadB⟩ :=
    recover_opened (newest (WalFile.openLog q.a.disk) (WalFile.openLog q.b.disk))
      (hreads.a.recorded.not_wraps q.a.disk.fits) (hreads.b.recorded.not_wraps q.b.disk.fits)
  -- what is recovered is the longest front, and the records make up all of it
  obtain ⟨rfl, -⟩ := hlongA.unique (hreads.a.recorded.whole q.a.disk.fits)
  obtain ⟨rfl, -⟩ := hlongB.unique (hreads.b.recorded.whole q.b.disk.fits)
  refine ⟨_, found, q', openRaw_raw huuid hofA hofB, hrecover, hfound.trans hperm, ⟨_, _, hreads', hperm⟩, ?_, ?_⟩
  · rw [hheadA]
    exact (LogFile.of_iff _ _).mp hofA
  · rw [hheadB]
    exact (LogFile.of_iff _ _).mp hofB

theorem Used.keeps (huuid : uuid.length = 16) (hstart : p.Keeps env uuid records) (h : Used env uuid p records q held) :
    q.Keeps env uuid held := by
  induction h with
  | start => exact hstart
  | append more _ hframes hok ih => exact ih.appendGroup hframes hok
  | reopen _ hopen hrecover ih =>
      obtain ⟨opened', found', q'', hopen', hrecover', -, hkeeps⟩ := ih.reopens huuid
      obtain rfl := Except.ok.inj (hopen.symm.trans hopen')
      obtain ⟨-, rfl⟩ := Prod.mk.inj (Except.ok.inj (hrecover.symm.trans hrecover'))
      exact hkeeps

/-- Two logs that open go on exactly when no length in them wraps around. -/
theorem resumes_opened {a b : LogFile} {active : Bool} {other : Option LogFile} (huuid : uuid.length = 16)
    (ha : a.Of uuid) (hb : b.Of uuid) (hother : ∀ disk ∈ other, disk = a ∨ disk = b) :
    (WalPair.mk (WalFile.openLog a) (WalFile.openLog b) active).Resumes env uuid other ↔
      ¬Wraps env a.bytes ∧ ¬Wraps env b.bytes := by
  constructor
  · rintro ⟨records, p, hrecover, -⟩
    obtain ⟨⟨logA, fa⟩, hA, hrecover⟩ := bind_eq_ok.mp hrecover
    obtain ⟨⟨logB, fb⟩, hB, -⟩ := bind_eq_ok.mp hrecover
    refine ⟨fun hwraps => ?_, fun hwraps => ?_⟩
    · rw [WalFile.recover_wraps hwraps] at hA
      cases hA
    · rw [WalFile.recover_wraps hwraps] at hB
      cases hB
  · rintro ⟨htameA, htameB⟩
    obtain ⟨left, frontA, right, frontB, records, p, hlongA, hlongB, hrecover, hperm, hreads, hheadA, hheadB⟩ :=
      recover_opened active htameA htameB
    refine ⟨records, p, hrecover, fun disk hdisk kept front hkept => ?_, fun q held hused => ?_⟩
    · rcases hother disk hdisk with rfl | rfl
      · rw [(hkept.unique hlongA).1]
        exact (List.sublist_append_left _ _).subperm.trans hperm.symm.subperm
      · rw [(hkept.unique hlongB).1]
        exact (List.sublist_append_right _ _).subperm.trans hperm.symm.subperm
    · have hkeeps : p.Keeps env uuid records := by
        refine ⟨⟨left, right, hreads, hperm.symm⟩, ?_, ?_⟩
        · rw [hheadA]
          exact (LogFile.of_iff _ _).mp ha
        · rw [hheadB]
          exact (LogFile.of_iff _ _).mp hb
      obtain ⟨reopened, found, q', hopen, hagain, hsame, -⟩ := (hused.keeps huuid hkeeps).reopens huuid
      exact ⟨reopened, found, q', hopen, hagain, hsame⟩

end WalPair

/-- The point lies outside the header that is being written. -/
def CrashPoint.Outside : CrashPoint → Prop
  | .before => True
  | .within written => walHeaderLen ≤ written

/-- The log that is created where there is none. -/
def newLog (uuid : List UInt8) : LogFile := ⟨⟨0, uuid⟩, [], LogFile.nil_fits⟩

/-- What the log that is written anew holds once it can be opened again. -/
def Renewal.renewed (uuid : List UInt8) (r : Renewal) : CrashPoint → LogFile
  | .before => r.old.getD (newLog uuid)
  | .within _ => ⟨⟨(r.header uuid).generation % 2 ^ 64, uuid⟩, [], LogFile.nil_fits⟩

namespace Renewal

variable {r : Renewal} {point : CrashPoint}

/-- A log of the table opens, and a missing one is created. -/
theorem openRawOne_map {disk : Option LogFile} (huuid : uuid.length = 16) (h : ∀ d ∈ disk, d.Of uuid) :
    WalPair.openRawOne env.checksum (disk.map (LogFile.raw env.checksum)) uuid =
      .ok (WalFile.openLog (disk.getD (newLog uuid))) := by
  cases disk with
  | none => rfl
  | some disk => exact openRawOne_raw huuid (h disk rfl)

theorem getD_of {disk : Option LogFile} (h : ∀ d ∈ disk, d.Of uuid) : (disk.getD (newLog uuid)).Of uuid := by
  cases disk with
  | none => exact ⟨rfl, Nat.two_pow_pos 64⟩
  | some disk => exact h disk rfl

theorem renewed_of (h : r.Of uuid) : (r.renewed uuid point).Of uuid := by
  cases point with
  | before => exact getD_of h.old
  | within written => exact ⟨rfl, Nat.mod_lt _ (by decide)⟩

theorem openRaw_left (env : Env τ ν) (h : r.Of uuid) (hpoint : point.Outside) :
    ∃ a b active, WalPair.openRaw env.checksum (r.left env.checksum uuid point).1 (r.left env.checksum uuid point).2 uuid =
      .ok ⟨WalFile.openLog a, WalFile.openLog b, active⟩ ∧
      ((a, b) = (r.renewed uuid point, r.other.getD (newLog uuid)) ∨
        (a, b) = (r.other.getD (newLog uuid), r.renewed uuid point)) := by
  have hother : WalPair.openRawOne env.checksum (r.other.map (LogFile.raw env.checksum)) uuid =
      .ok (WalFile.openLog (r.other.getD (newLog uuid))) := openRawOne_map h.wide h.other
  have hrenewed : WalPair.openRawOne env.checksum (r.crashed env.checksum uuid point) uuid =
      .ok (WalFile.openLog (r.renewed uuid point)) := by
    cases point with
    | before => exact openRawOne_map h.wide h.old
    | within written =>
        have hheader : r.header uuid = ⟨(r.header uuid).generation, uuid⟩ := by
          have hsame := h.header
          generalize r.header uuid = header at hsame ⊢
          subst hsame
          rfl
        have hwhole : ((r.header uuid).encode env.checksum).take written =
            WalHeader.encode env.checksum ⟨(r.header uuid).generation, uuid⟩ ++ [] := by
          rw [List.append_nil, ← hheader]
          refine List.take_of_length_le ?_
          rw [WalHeader.length_encode (by rw [h.header, h.wide])]
          exact hpoint
        rw [crashed, hwhole, openRawOne_encode h.wide _ _ (by decide)]
        rfl
  cases hindex : r.index with
  | false =>
      refine ⟨_, _, newest (WalFile.openLog (r.renewed uuid point)) (WalFile.openLog (r.other.getD (newLog uuid))), ?_,
        .inl rfl⟩
      simp only [left, hindex, WalPair.openRaw, hrenewed, hother, bind, Except.bind, pure, Except.pure, Bool.false_eq_true,
        if_false]
  | true =>
      refine ⟨_, _, newest (WalFile.openLog (r.other.getD (newLog uuid))) (WalFile.openLog (r.renewed uuid point)), ?_,
        .inr rfl⟩
      simp only [left, hindex, WalPair.openRaw, hrenewed, hother, bind, Except.bind, pure, Except.pure, if_true]

theorem openRaw_inside {written : Nat} (h : r.Of uuid) (hpoint : written < walHeaderLen) :
    ∃ e, WalPair.openRaw env.checksum (r.left env.checksum uuid (.within written)).1
      (r.left env.checksum uuid (.within written)).2 uuid = .error e := by
  have hshort : (((r.header uuid).encode env.checksum).take written).length < walHeaderLen := by
    rw [List.length_take]
    omega
  obtain ⟨e, he⟩ : ∃ e, WalPair.openRawOne env.checksum (some (((r.header uuid).encode env.checksum).take written)) uuid =
      .error e := openRawOne_short hshort
  refine ⟨e, ?_⟩
  cases hindex : r.index with
  | false => simp only [left, crashed, hindex, WalPair.openRaw, he, bind, Except.bind, Bool.false_eq_true, if_false]
  | true =>
      have hother : WalPair.openRawOne env.checksum (r.other.map (LogFile.raw env.checksum)) uuid =
          .ok (WalFile.openLog (r.other.getD (newLog uuid))) := openRawOne_map h.wide h.other
      simp only [left, crashed, hindex, WalPair.openRaw, hother, he, bind, Except.bind, if_true]

/-- A log created where there was none holds nothing that could wrap around. -/
theorem not_wraps_getD (uuid : List UInt8) {disk : Option LogFile} :
    ¬Wraps env (disk.getD (newLog uuid)).bytes ↔ ∀ d ∈ disk, ¬Wraps env d.bytes := by
  cases disk with
  | none => exact ⟨fun _ d hd => (nomatch hd), fun _ => Recorded.nil.not_wraps (by decide)⟩
  | some disk => exact ⟨fun h d hd => Option.mem_some_iff.mp hd ▸ h, fun h => h disk rfl⟩

/-- After a crash while a log is written anew the table goes on, unless the crash left part of a header behind. -/
theorem renewal_resumes_iff (env : Env τ ν) (h : r.Of uuid) : r.Resumes env uuid point ↔
    point.Outside ∧ (∀ disk ∈ r.other, ¬Wraps env disk.bytes) ∧
      (point = .before → ∀ disk ∈ r.old, ¬Wraps env disk.bytes) := by
  by_cases hpoint : point.Outside
  case neg =>
    refine iff_of_false ?_ fun hall => hpoint hall.1
    rintro ⟨opened, hopen, -⟩
    cases point with
    | before => exact hpoint trivial
    | within written =>
        obtain ⟨e, he⟩ : ∃ e, WalPair.openRaw env.checksum (r.left env.checksum uuid (.within written)).1
          (r.left env.checksum uuid (.within written)).2 uuid = .error e := openRaw_inside h (Nat.lt_of_not_le hpoint)
        rw [he] at hopen
        cases hopen
  have hrenewed : ¬Wraps env (r.renewed uuid point).bytes ↔ (point = .before → ∀ disk ∈ r.old, ¬Wraps env disk.bytes) := by
    cases point with
    | before => exact (not_wraps_getD uuid).trans ⟨fun hall _ => hall, fun hall => hall rfl⟩
    | within written => exact ⟨fun _ hbefore => (nomatch hbefore), fun _ => Recorded.nil.not_wraps (by decide)⟩
  have hmem : ∀ disk ∈ r.other, disk = r.other.getD (newLog uuid) := by
    intro disk hdisk
    rw [Option.mem_def.mp hdisk]
    rfl
  obtain ⟨a, b, active, hopen, hlogs⟩ := openRaw_left env h hpoint
  have hresumes : r.Resumes env uuid point ↔
      (WalPair.mk (WalFile.openLog a) (WalFile.openLog b) active).Resumes env uuid r.other := by
    constructor
    · rintro ⟨opened, hopened, hresumes⟩
      rw [hopen] at hopened
      exact Except.ok.inj hopened ▸ hresumes
    · exact fun hresumes => ⟨_, hopen, hresumes⟩
  rw [hresumes, ← not_wraps_getD uuid, ← hrenewed, and_iff_right hpoint]
  rcases hlogs with hlogs | hlogs
  · obtain ⟨rfl, rfl⟩ := Prod.mk.inj hlogs
    rw [WalPair.resumes_opened h.wide (renewed_of h) (getD_of h.other) fun disk hdisk => .inr (hmem disk hdisk)]
    exact and_comm
  · obtain ⟨rfl, rfl⟩ := Prod.mk.inj hlogs
    exact WalPair.resumes_opened h.wide (getD_of h.other) (renewed_of h) fun disk hdisk => .inl (hmem disk hdisk)

end Renewal

end Resumes

section Emptied

def sampleUuid : List UInt8 := List.replicate 16 3

/-- Two logs: the first takes appends and holds a record, the second is empty. -/
def twoLogs : WalPair where
  a := WalFile.openLog ⟨⟨1, sampleUuid⟩, (framesOf [.insert 1 0 ⟨[()], [[7]]⟩]).flatten, by decide +kernel⟩
  b := WalFile.openLog ⟨⟨0, sampleUuid⟩, [], LogFile.nil_fits⟩
  active := false

theorem twoLogs_of : (Renewal.rotate twoLogs).Of sampleUuid where
  wide := by decide
  old disk h := by
    obtain rfl := Option.mem_some_iff.mp h
    exact ⟨rfl, Nat.two_pow_pos 64⟩
  other disk h := by
    obtain rfl := Option.mem_some_iff.mp h
    exact ⟨rfl, by decide⟩
  header := rfl

theorem twoLogs_tame : ∀ disk ∈ (Renewal.rotate twoLogs).other, ¬Wraps logEnv disk.bytes := by
  intro disk h
  obtain rfl := Option.mem_some_iff.mp h
  have hframed : Framed logEnv [.insert 1 0 ⟨[()], [[7]]⟩] twoLogs.a.disk.bytes := Framed.of_mapM (by decide +kernel)
  exact hframed.recorded.not_wraps twoLogs.a.disk.fits

/-- A crash behind the header of a rotated log. -/
theorem rotated_log_resumes : (Renewal.rotate twoLogs).Resumes logEnv sampleUuid (.within 64) :=
  (Renewal.renewal_resumes_iff logEnv twoLogs_of).mpr ⟨le_rfl, twoLogs_tame, fun h => nomatch h⟩

/-- A crash right after the file was emptied: neither log can be opened any more. -/
theorem emptied_log_locks_out : (Renewal.rotate twoLogs).Of sampleUuid ∧
    ¬(Renewal.rotate twoLogs).Resumes logEnv sampleUuid (.within 0) := by
  refine ⟨twoLogs_of, ?_⟩
  rintro ⟨opened, hopen, -⟩
  obtain ⟨e, he⟩ : ∃ e, WalPair.openRaw logEnv.checksum ((Renewal.rotate twoLogs).left logEnv.checksum sampleUuid (.within 0)).1
      ((Renewal.rotate twoLogs).left logEnv.checksum sampleUuid (.within 0)).2 sampleUuid = .error e :=
    Renewal.openRaw_inside twoLogs_of (by decide)
  rw [he] at hopen
  cases hopen

end Emptied

end LocalTables
