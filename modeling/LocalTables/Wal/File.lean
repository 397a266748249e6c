import LocalTables.Columnar.Batch

/-! One write-ahead log file (`wal/file.rs`): a header followed by framed records. Recovery reads forward
and stops at the first frame that fails. A crash inside an append leaves a prefix of the bytes, and
recovery finds the records that were whole. -/

namespace LocalTables

variable {τ ν : Type}

/-- Identifies a log file and the table it belongs to. -/
structure WalHeader where
  generation : Nat
  tableUuid : List UInt8
  deriving DecidableEq, Repr

/-- A log file on disk: its header and the bytes after it. File sizes are `u64`. -/
structure LogFile where
  header : WalHeader
  bytes : Bytes
  fits : bytes.length < 2 ^ 64
  deriving DecidableEq

theorem LogFile.nil_fits : ([] : Bytes).length < 2 ^ 64 := Nat.two_pow_pos 64

/-- An open log file: what is on disk, and what the handle believes. -/
structure WalFile where
  disk : LogFile
  header : WalHeader
  /-- Bytes written after the header. -/
  len : Nat
  deriving DecidableEq

/-- What one log file held after a crash. -/
structure RecoveredLog (τ ν : Type) where
  generation : Nat
  records : List (WalRecord τ ν)
  truncated : Bool

section Frames

variable (env : Env τ ν)

/-- Wrap a record in a frame ready to append. -/
def encodeRecord (record : WalRecord τ ν) : Except Error Bytes := do
  let payload ← env.codec.toBytes record
  return Frame.encode env.checksum Frame.walRec payload

/-- Read whole records from `offset` on: the records, and where the first damaged one starts. Lengths are
`usize`; a frame length that wraps past the end of the file aborts. -/
def scan (bytes : Bytes) : Nat → Nat → Except Error (List (WalRecord τ ν) × Option Nat)
  | 0, _ => .ok ([], none)
  | fuel + 1, offset =>
      if offset < bytes.length then
        let rest := bytes.drop offset
        match Frame.peekLen env.checksum rest Frame.walRec "wal record" with
        | .error _ => .ok ([], some offset)
        | .ok payloadLen =>
            let frameLen := (Frame.headerLen + payloadLen) % 2 ^ 64
            if (offset + frameLen) % 2 ^ 64 > bytes.length then .ok ([], some offset)
            else if frameLen > rest.length then .error .overflow
            else
              match Frame.decode env.checksum (rest.take frameLen) Frame.walRec "wal record" with
              | .error _ => .ok ([], some offset)
              | .ok payload =>
                  match env.codec.fromBytes payload with
                  | none => .ok ([], some offset)
                  | some record => do
                      let (records, truncatedAt) ← scan bytes fuel (offset + frameLen)
                      return (record :: records, truncatedAt)
      else .ok ([], none)

end Frames

namespace WalFile

/-- Open an existing log file for appending. -/
def openLog (disk : LogFile) : WalFile := ⟨disk, disk.header, disk.bytes.length⟩

/-- Create a log file. -/
def create (header : WalHeader) : WalFile := openLog ⟨header, [], by decide⟩

variable (f : WalFile)

/-- The bytes after `joined` has been written at the handle's end. -/
def written (joined : Bytes) : Bytes :=
  f.disk.bytes.take f.len ++ List.replicate (f.len - f.disk.bytes.length) 0 ++ joined ++
    f.disk.bytes.drop (f.len + joined.length)

/-- Append framed records, then sync once for all of them. -/
def appendGroup (frames : List Bytes) : Except Error WalFile :=
  if frames.isEmpty then .ok f
  else if h : (f.written frames.flatten).length < 2 ^ 64 then
    .ok { f with disk := { f.disk with bytes := f.written frames.flatten, fits := h }, len := f.len + frames.flatten.length }
  else .error (.io "file too large")

/-- Drop every record, keeping the file and its header. -/
def truncate : WalFile := { f with disk := { f.disk with bytes := [], fits := by decide }, len := 0 }

/-- Start a new generation in this file, discarding what it held. -/
def rotate (generation : Nat) : WalFile :=
  let header := { f.header with generation := generation }
  { disk := ⟨header, [], by decide⟩, header := header, len := 0 }

/-- Cut the file back to its first `good` record bytes. -/
def cutTo (good : Nat) : WalFile :=
  { f with
    disk := {
      f.disk with
      bytes := f.disk.bytes.take good
      fits := Nat.lt_of_le_of_lt (by rw [List.length_take]; exact min_le_right _ _) f.disk.fits }
    len := good }

/-- Read every whole record, and truncate the file at the first damaged one. -/
def recover (env : Env τ ν) : Except Error (RecoveredLog τ ν × WalFile) := do
  let (records, truncatedAt) ← scan env f.disk.bytes f.disk.bytes.length 0
  match truncatedAt with
  | some good => return (⟨f.header.generation, records, true⟩, f.cutTo good)
  | none => return (⟨f.header.generation, records, false⟩, f)

end WalFile

/-- The bytes are the frames of these records, one after the other. -/
inductive Framed (env : Env τ ν) : List (WalRecord τ ν) → Bytes → Prop where
  | nil : Framed env [] []
  | cons {record : WalRecord τ ν} {frame bytes : Bytes} {records : List (WalRecord τ ν)}
      (hframe : encodeRecord env record = .ok frame) (hrest : Framed env records bytes) :
      Framed env (record :: records) (frame ++ bytes)

namespace Framed

variable {env : Env τ ν} {records more : List (WalRecord τ ν)} {bytes tail : Bytes}

theorem append (h : Framed env records bytes) (hmore : Framed env more tail) :
    Framed env (records ++ more) (bytes ++ tail) := by
  induction h with
  | nil => exact hmore
  | cons hframe _ ih =>
      rw [List.cons_append, List.append_assoc]
      exact .cons hframe ih

theorem of_mapM {frames : List Bytes} (h : records.mapM (encodeRecord env) = .ok frames) :
    Framed env records frames.flatten := by
  induction records generalizing frames with
  | nil =>
      obtain rfl := Except.ok.inj h
      exact .nil
  | cons record records ih =>
      rw [List.mapM_cons] at h
      obtain ⟨frame, hframe, h⟩ := bind_eq_ok.mp h
      obtain ⟨rest, hrest, h⟩ := bind_eq_ok.mp h
      obtain rfl := Except.ok.inj h
      exact .cons hframe (ih hrest)

end Framed

theorem walRec_lt : Frame.walRec < 2 ^ 64 := by decide

section Scan

variable {env : Env τ ν} {record : WalRecord τ ν} {frame : Bytes}

/-- What a frame holds. -/
theorem encodeRecord_ok (h : encodeRecord env record = .ok frame) :
    ∃ payload, frame = Frame.encode env.checksum Frame.walRec payload ∧
      env.codec.fromBytes payload = some record ∧ Frame.headerLen + payload.length < 2 ^ 64 := by
  obtain ⟨payload, hpayload, h⟩ := bind_eq_ok.mp h
  obtain rfl := Except.ok.inj h
  exact ⟨payload, rfl, env.codec.roundTrip _ _ hpayload, env.codec.fits _ _ hpayload⟩

theorem length_frame_pos (h : encodeRecord env record = .ok frame) : 0 < frame.length := by
  obtain ⟨payload, rfl, -, -⟩ := encodeRecord_ok h
  rw [Frame.length_encode, Frame.headerLen]
  omega

theorem scan_frame (h : encodeRecord env record = .ok frame) (front tail : Bytes) (fuel : Nat)
    (hfits : (front ++ (frame ++ tail)).length < 2 ^ 64) :
    scan env (front ++ (frame ++ tail)) (fuel + 1) front.length = (do
      let (records, truncatedAt) ← scan env (front ++ (frame ++ tail)) fuel (front.length + frame.length)
      return (record :: records, truncatedAt)) := by
  obtain ⟨payload, rfl, hrecord, hlen⟩ := encodeRecord_ok h
  have hframe : (Frame.encode env.checksum Frame.walRec payload).length = Frame.headerLen + payload.length :=
    Frame.length_encode
  have hpos : 0 < (Frame.encode env.checksum Frame.walRec payload).length := length_frame_pos h
  have hrest : (front ++ (Frame.encode env.checksum Frame.walRec payload ++ tail)).drop front.length =
      Frame.encode env.checksum Frame.walRec payload ++ tail := List.drop_left' rfl
  have hpeek : Frame.peekLen env.checksum (Frame.encode env.checksum Frame.walRec payload ++ tail) Frame.walRec
      "wal record" = .ok payload.length := Frame.peekLen_encode payload tail _ walRec_lt (by omega)
  have hdecode : Frame.decode env.checksum (Frame.encode env.checksum Frame.walRec payload) Frame.walRec
      "wal record" = .ok payload := by
    have := Frame.decode_encode env.checksum payload [] "wal record" walRec_lt hlen
    rwa [List.append_nil] at this
  simp only [List.length_append] at hfits
  have hmod : (Frame.headerLen + payload.length) % 2 ^ 64 = Frame.headerLen + payload.length :=
    Nat.mod_eq_of_lt hlen
  have htake : (Frame.encode env.checksum Frame.walRec payload ++ tail).take (Frame.headerLen + payload.length) =
      Frame.encode env.checksum Frame.walRec payload := List.take_left' hframe
  rw [scan, if_pos (by simp only [List.length_append]; omega), hrest]
  simp only [hpeek, hmod]
  rw [if_neg (by rw [Nat.mod_eq_of_lt (by omega)]; simp only [List.length_append]; omega),
    if_neg (by simp only [List.length_append]; omega), htake]
  simp only [hdecode, hrecord, hframe]

theorem scan_end (bytes : Bytes) (fuel : Nat) : scan env bytes fuel bytes.length = .ok ([], none) := by
  cases fuel with
  | zero => rfl
  | succ fuel => rw [scan, if_neg (lt_irrefl _)]

theorem scan_framed {records : List (WalRecord τ ν)} {bytes : Bytes} (h : Framed env records bytes)
    (front tail : Bytes) (fuel : Nat) (hfits : (front ++ (bytes ++ tail)).length < 2 ^ 64) :
    scan env (front ++ (bytes ++ tail)) (records.length + fuel) front.length = (do
      let (rest, truncatedAt) ← scan env (front ++ (bytes ++ tail)) fuel (front.length + bytes.length)
      return (records ++ rest, truncatedAt)) := by
  induction h generalizing front with
  | nil =>
      simp only [List.length_nil, Nat.zero_add, List.nil_append, Nat.add_zero]
      cases scan env (front ++ tail) fuel front.length <;> rfl
  | @cons record frame bytes records hframe _ ih =>
      have hshift : front ++ (frame ++ bytes ++ tail) = (front ++ frame) ++ (bytes ++ tail) := by simp
      have hnest : front ++ (frame ++ bytes ++ tail) = front ++ (frame ++ (bytes ++ tail)) := by simp
      have hfuel : (record :: records).length + fuel = (records.length + fuel) + 1 := by
        rw [List.length_cons]
        omega
      rw [hfuel, hnest, scan_frame hframe front (bytes ++ tail) _ (hnest ▸ hfits), ← hnest, hshift,
        show front.length + frame.length = (front ++ frame).length by simp, ih (front ++ frame) (hshift ▸ hfits)]
      simp only [List.length_append, Nat.add_assoc]
      cases scan env (front ++ frame ++ (bytes ++ tail)) fuel (front.length + (frame.length + bytes.length)) <;> rfl

/-- A frame that was cut short is where recovery stops. -/
theorem scan_torn (h : encodeRecord env record = .ok frame) (front : Bytes) (fuel : Nat) {count : Nat}
    (hcount : 0 < count) (hcut : count < frame.length) (hfits : front.length + frame.length < 2 ^ 64) :
    scan env (front ++ frame.take count) (fuel + 1) front.length = .ok ([], some front.length) := by
  obtain ⟨payload, rfl, -, hlen⟩ := encodeRecord_ok h
  have hframe : (Frame.encode env.checksum Frame.walRec payload).length = Frame.headerLen + payload.length :=
    Frame.length_encode
  have hpart : ((Frame.encode env.checksum Frame.walRec payload).take count).length = count := by
    rw [List.length_take]
    omega
  rw [scan, if_pos (by rw [List.length_append]; omega), List.drop_left' rfl]
  dsimp only
  by_cases hhead : count < Frame.headerLen
  · have hshort : ((Frame.encode env.checksum Frame.walRec payload).take count).length < Frame.headerLen :=
      hpart.symm ▸ hhead
    obtain ⟨e, he⟩ : ∃ e, Frame.peekLen env.checksum ((Frame.encode env.checksum Frame.walRec payload).take count)
        Frame.walRec "wal record" = .error e := Frame.peekLen_short _ hshort
    rw [he]
  · have hpeek : Frame.peekLen env.checksum ((Frame.encode env.checksum Frame.walRec payload).take count)
        Frame.walRec "wal record" = .ok payload.length := by
      have hwhole : Frame.peekLen env.checksum (Frame.encode env.checksum Frame.walRec payload ++ []) Frame.walRec
          "wal record" = .ok payload.length := Frame.peekLen_encode payload [] _ walRec_lt (by omega)
      rw [List.append_nil] at hwhole
      rw [← hwhole]
      exact Frame.peekLen_take "wal record" (not_lt.mp hhead) (by rw [hframe]; omega)
    rw [hpeek]
    dsimp only
    rw [Nat.mod_eq_of_lt hlen, if_pos]
    rw [Nat.mod_eq_of_lt (by omega), List.length_append, hpart]
    omega

end Scan

/-- A prefix of a run of frames: some whole frames and part of the next. -/
theorem Framed.take {env : Env τ ν} {records : List (WalRecord τ ν)} {bytes : Bytes} (h : Framed env records bytes)
    (count : Nat) : ∃ whole front part, whole <+: records ∧ Framed env whole front ∧
      bytes.take count = front ++ part ∧ (part = [] ∨ ∃ record frame n, encodeRecord env record = .ok frame ∧
        part = frame.take n ∧ 0 < n ∧ n < frame.length ∧ front.length + frame.length ≤ bytes.length) := by
  induction h generalizing count with
  | nil => exact ⟨[], [], [], List.prefix_refl _, .nil, by simp, .inl rfl⟩
  | @cons record frame bytes records hframe hrest ih =>
      by_cases hwhole : frame.length ≤ count
      · obtain ⟨whole, front, part, hstarts, hframed, htake, hpart⟩ := ih (count - frame.length)
        refine ⟨record :: whole, frame ++ front, part, List.cons_prefix_cons.mpr ⟨rfl, hstarts⟩,
          .cons hframe hframed, ?_, hpart.imp id ?_⟩
        · rw [List.take_append, List.take_of_length_le hwhole, htake, List.append_assoc]
        · rintro ⟨r, f, n, hr, hf, hpos, hn, hlen⟩
          exact ⟨r, f, n, hr, hf, hpos, hn, by simp only [List.length_append]; omega⟩
      · refine ⟨[], [], frame.take count, List.nil_prefix, .nil, ?_, ?_⟩
        · rw [List.nil_append, List.take_append_of_le_length (by omega)]
        · rcases Nat.eq_zero_or_pos count with rfl | hpos
          · exact .inl rfl
          · exact .inr ⟨record, frame, count, hframe, rfl, hpos, by omega, by simp⟩

end LocalTables
