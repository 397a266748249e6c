import LocalTables.Wal.Pair

/-! Recovery of one log from any bytes at all. A frame is told by its bytes alone, so there is one longest run of whole
records at the start of a log, and recovery finds it, unless the length of a damaged frame wraps around. -/

namespace LocalTables

variable {τ ν : Type}

/-- The bytes are the frame of a payload that decodes to the record. -/
def WellFormed (env : Env τ ν) (record : WalRecord τ ν) (frame : Bytes) : Prop :=
  ∃ payload, frame = Frame.encode env.checksum Frame.walRec payload ∧ env.codec.fromBytes payload = some record

/-- The bytes are well-formed frames of these records, one after the other. -/
inductive Recorded (env : Env τ ν) : List (WalRecord τ ν) → Bytes → Prop where
  | nil : Recorded env [] []
  | cons {record : WalRecord τ ν} {frame bytes : Bytes} {records : List (WalRecord τ ν)}
      (hframe : WellFormed env record frame) (hrest : Recorded env records bytes) :
      Recorded env (record :: records) (frame ++ bytes)

/-- The records of the longest run of well-formed frames that the bytes start with. -/
structure Longest (env : Env τ ν) (bytes : Bytes) (records : List (WalRecord τ ν)) (front : Bytes) : Prop where
  recorded : Recorded env records front
  starts : front <+: bytes
  longest : ∀ records' front', Recorded env records' front' → front' <+: bytes → records' <+: records ∧ front' <+: front

/-- Behind a run of well-formed frames stands a frame header that claims so many bytes that the end of the frame, counted
in 64 bits, comes out before its start. -/
def Wraps (env : Env τ ν) (bytes : Bytes) : Prop :=
  ∃ records front tail len, Recorded env records front ∧ bytes = front ++ tail ∧
    Frame.peekLen env.checksum tail Frame.walRec "wal record" = .ok len ∧
    2 ^ 64 ≤ front.length + (Frame.headerLen + len) % 2 ^ 64

section Recorded

variable {env : Env τ ν} {record other : WalRecord τ ν} {frame frame' bytes rest rest' : Bytes}
  {records more : List (WalRecord τ ν)}

theorem WellFormed.length (h : WellFormed env record frame) : Frame.headerLen ≤ frame.length := by
  obtain ⟨payload, rfl, -⟩ := h
  rw [Frame.length_encode]
  omega

/-- A frame at the start of some bytes is told by them. -/
theorem WellFormed.unique (h : WellFormed env record frame) (h' : WellFormed env other frame')
    (hfits : (frame ++ rest).length < 2 ^ 64) (heq : frame ++ rest = frame' ++ rest') :
    record = other ∧ frame = frame' ∧ rest = rest' := by
  obtain ⟨payload, rfl, hrecord⟩ := h
  obtain ⟨payload', rfl, hother⟩ := h'
  have hfits' := hfits
  rw [heq] at hfits'
  rw [List.length_append, Frame.length_encode] at hfits hfits'
  obtain ⟨rfl, hrest⟩ := Frame.encode_append_inj walRec_lt (by omega) (by omega) heq
  exact ⟨Option.some.inj (hrecord.symm.trans hother), rfl, hrest⟩

theorem Recorded.append (h : Recorded env records bytes) (hmore : Recorded env more rest) :
    Recorded env (records ++ more) (bytes ++ rest) := by
  induction h with
  | nil => exact hmore
  | cons hframe _ ih =>
      rw [List.cons_append, List.append_assoc]
      exact .cons hframe ih

theorem Framed.recorded (h : Framed env records bytes) : Recorded env records bytes := by
  induction h with
  | nil => exact .nil
  | cons hframe _ ih =>
      obtain ⟨payload, rfl, hrecord, -⟩ := encodeRecord_ok hframe
      exact .cons ⟨payload, rfl, hrecord⟩ ih

/-- Where no well-formed frame follows, a run of them is the longest. -/
theorem Recorded.longest (h : Recorded env records bytes) (hfits : (bytes ++ rest).length < 2 ^ 64)
    (hstop : ∀ record frame, WellFormed env record frame → ¬frame <+: rest) : Longest env (bytes ++ rest) records bytes := by
  refine ⟨h, List.prefix_append _ _, fun records' front' h' hfront => ?_⟩
  induction h generalizing records' front' with
  | nil =>
      cases h' with
      | nil => exact ⟨List.prefix_rfl, List.prefix_rfl⟩
      | @cons record frame bytes' records'' hframe hrest =>
          exact absurd ((List.prefix_append frame bytes').trans hfront) (hstop record frame hframe)
  | @cons record frame bytes records hframe hrest ih =>
      cases h' with
      | nil => exact ⟨List.nil_prefix, List.nil_prefix⟩
      | @cons other frame' bytes' records'' hframe' hrest' =>
          obtain ⟨tail, htail⟩ := hfront
          rw [List.append_assoc] at hfits
          have heq : frame ++ (bytes ++ rest) = frame' ++ (bytes' ++ tail) := by
            rw [← List.append_assoc, ← List.append_assoc]
            exact htail.symm
          obtain ⟨rfl, rfl, hsame⟩ := hframe.unique hframe' hfits heq
          obtain ⟨hrecords, hfront⟩ := ih (by rw [List.length_append] at hfits; omega) _ _ hrest' ⟨tail, hsame.symm⟩
          exact ⟨List.cons_prefix_cons.mpr ⟨rfl, hrecords⟩, (List.prefix_append_right_inj _).mpr hfront⟩

/-- Of two runs of well-formed frames at the start of the same bytes, one goes on where the other ends. -/
theorem Recorded.total {front front' tail tail' : Bytes} (h : Recorded env records front) (h' : Recorded env more front')
    (hfits : (front ++ tail).length < 2 ^ 64) (heq : front ++ tail = front' ++ tail') :
    (∃ records' rest, front' = front ++ rest ∧ Recorded env records' rest ∧ tail = rest ++ tail') ∨
      ∃ records' rest, front = front' ++ rest ∧ Recorded env records' rest ∧ tail' = rest ++ tail := by
  induction h generalizing more front' with
  | nil => exact .inl ⟨more, front', rfl, h', heq⟩
  | @cons record frame front records hframe hrest ih =>
      cases h' with
      | nil => exact .inr ⟨record :: records, frame ++ front, rfl, .cons hframe hrest, heq.symm⟩
      | @cons other frame' front' more hframe' hrest' =>
          rw [List.append_assoc] at heq hfits
          rw [List.append_assoc] at heq
          obtain ⟨-, rfl, hsame⟩ := hframe.unique hframe' hfits heq
          refine (ih hrest' (by rw [List.length_append] at hfits; omega) hsame).imp ?_ ?_
          all_goals
            rintro ⟨records', rest, rfl, hrecorded, htail⟩
            exact ⟨records', rest, (List.append_assoc _ _ _).symm, hrecorded, htail⟩

theorem Longest.unique {front front' : Bytes} (h : Longest env bytes records front) (h' : Longest env bytes more front') :
    records = more ∧ front = front' := by
  obtain ⟨hrecords, hfront⟩ := h.longest _ _ h'.recorded h'.starts
  obtain ⟨hrecords', hfront'⟩ := h'.longest _ _ h.recorded h.starts
  exact ⟨hrecords'.eq_of_length_le hrecords.length_le, hfront'.eq_of_length_le hfront.length_le⟩

end Recorded

/-- What recovery can come to from an offset on. -/
inductive Scanned (env : Env τ ν) (bytes : Bytes) (offset : Nat) : Except Error (List (WalRecord τ ν) × Option Nat) → Prop where
  | all {records : List (WalRecord τ ν)} (h : Recorded env records (bytes.drop offset)) : Scanned env bytes offset (.ok (records, none))
  | stops {records : List (WalRecord τ ν)} {front tail : Bytes} (h : Recorded env records front)
      (hdrop : bytes.drop offset = front ++ tail) (hmore : tail ≠ [])
      (hstop : ∀ record frame, WellFormed env record frame → ¬frame <+: tail)
      (hsmall : ∀ len, Frame.peekLen env.checksum tail Frame.walRec "wal record" = .ok len →
        offset + front.length + (Frame.headerLen + len) % 2 ^ 64 < 2 ^ 64) :
      Scanned env bytes offset (.ok (records, some (offset + front.length)))
  | wraps {records : List (WalRecord τ ν)} {front tail : Bytes} {len : Nat} (h : Recorded env records front)
      (hdrop : bytes.drop offset = front ++ tail)
      (hpeek : Frame.peekLen env.checksum tail Frame.walRec "wal record" = .ok len)
      (hwraps : 2 ^ 64 ≤ offset + front.length + (Frame.headerLen + len) % 2 ^ 64) :
      Scanned env bytes offset (.error .overflow)

section Scan

variable {env : Env τ ν} {record : WalRecord τ ν} {frame bytes : Bytes}

/-- The header of a frame that starts some bytes gives its length. -/
theorem WellFormed.peekLen (h : WellFormed env record frame) (hfront : frame <+: bytes) (hfits : bytes.length < 2 ^ 64) :
    Frame.peekLen env.checksum bytes Frame.walRec "wal record" = .ok (frame.length - Frame.headerLen) := by
  obtain ⟨payload, rfl, -⟩ := h
  obtain ⟨rest, rfl⟩ := hfront
  rw [List.length_append, Frame.length_encode] at hfits
  rw [Frame.length_encode, Nat.add_sub_cancel_left]
  exact Frame.peekLen_encode payload rest _ walRec_lt (by omega)

theorem WellFormed.decode (h : WellFormed env record frame) (hfits : frame.length < 2 ^ 64) :
    ∃ payload, Frame.decode env.checksum frame Frame.walRec "wal record" = .ok payload ∧
      env.codec.fromBytes payload = some record := by
  obtain ⟨payload, rfl, hrecord⟩ := h
  rw [Frame.length_encode] at hfits
  have := Frame.decode_encode env.checksum payload [] "wal record" walRec_lt hfits
  rw [List.append_nil] at this
  exact ⟨payload, this, hrecord⟩

/-- A frame whose payload decodes is well formed, cut off where its header says. -/
theorem wellFormed_of_decode {rest payload : Bytes} {len frameLen : Nat}
    (hpeek : Frame.peekLen env.checksum rest Frame.walRec "wal record" = .ok len)
    (hframeLen : (Frame.headerLen + len) % 2 ^ 64 = frameLen) (hshort : ¬frameLen > rest.length)
    (hdecode : Frame.decode env.checksum (rest.take frameLen) Frame.walRec "wal record" = .ok payload)
    (hrecord : env.codec.fromBytes payload = some record) : WellFormed env record (rest.take frameLen) := by
  obtain ⟨len', hpeek', hlt, hle, hpayload, -⟩ := Frame.decode_ok hdecode
  have hcut : (rest.take frameLen).length = frameLen := by
    rw [List.length_take]
    omega
  rw [hcut] at hle
  rw [Frame.peekLen_take _ (by omega) (by omega), hpeek] at hpeek'
  obtain rfl := Except.ok.inj hpeek'
  rw [Nat.mod_eq_of_lt hlt] at hframeLen
  have hlen : payload.length = len := by
    rw [hpayload, List.length_take, List.length_drop, hcut]
    omega
  exact ⟨payload, Frame.eq_encode_of_decode hdecode (by rw [hcut, hlen, hframeLen]), hrecord⟩

theorem Scanned.cons {offset : Nat} {front : Bytes} {next : Nat} {result : Except Error (List (WalRecord τ ν) × Option Nat)}
    (h : Scanned env bytes next result) (hframe : WellFormed env record front) (hnext : next = offset + front.length)
    (hdrop : bytes.drop offset = front ++ bytes.drop next) :
    Scanned env bytes offset (do
      let (records, truncatedAt) ← result
      return (record :: records, truncatedAt)) := by
  subst hnext
  cases h with
  | all h =>
      refine .all ?_
      rw [hdrop]
      exact .cons hframe h
  | @stops records front' tail h hdrop' hmore hstop hsmall =>
      have hlen : offset + front.length + front'.length = offset + (front ++ front').length := by
        rw [List.length_append, Nat.add_assoc]
      rw [hlen] at hsmall ⊢
      exact .stops (.cons hframe h) (by rw [hdrop, hdrop', List.append_assoc]) hmore hstop hsmall
  | @wraps records front' tail len h hdrop' hpeek hwraps =>
      refine .wraps (.cons hframe h) (by rw [hdrop, hdrop', List.append_assoc]) hpeek ?_
      rw [List.length_append]
      omega

section Look

variable {rest : Bytes} {offset len : Nat}

theorem WellFormed.frameLen (h : WellFormed env record frame) (hfront : frame <+: rest) (hfits : rest.length < 2 ^ 64)
    (hpeek : Frame.peekLen env.checksum rest Frame.walRec "wal record" = .ok len) :
    (Frame.headerLen + len) % 2 ^ 64 = frame.length := by
  have hle := hfront.length_le
  have hhead := h.length
  rw [h.peekLen hfront hfits] at hpeek
  rw [← Except.ok.inj hpeek, Nat.add_sub_cancel' hhead]
  exact Nat.mod_eq_of_lt (by omega)

/-- What is cut off a frame ahead, by the length in its header, decodes. -/
theorem WellFormed.decode_take (h : WellFormed env record frame) (hfront : frame <+: rest) (hfits : rest.length < 2 ^ 64)
    (hpeek : Frame.peekLen env.checksum rest Frame.walRec "wal record" = .ok len) :
    ∃ payload, Frame.decode env.checksum (rest.take ((Frame.headerLen + len) % 2 ^ 64)) Frame.walRec "wal record" = .ok payload ∧
      env.codec.fromBytes payload = some record := by
  have hle := hfront.length_le
  rw [h.frameLen hfront hfits hpeek, ← List.prefix_iff_eq_take.mp hfront]
  exact h.decode (by omega)

theorem Scanned.stops_here (hrest : bytes.drop offset = rest) (hleft : rest ≠ [])
    (hnone : ∀ record frame, WellFormed env record frame → ¬frame <+: rest)
    (hsmall : ∀ len, Frame.peekLen env.checksum rest Frame.walRec "wal record" = .ok len →
      offset + (Frame.headerLen + len) % 2 ^ 64 < 2 ^ 64) : Scanned env bytes offset (.ok ([], some offset)) :=
  .stops .nil hrest hleft hnone hsmall

theorem Scanned.unread (hfits : rest.length < 2 ^ 64) (hrest : bytes.drop offset = rest) (hleft : rest ≠ []) {error : Error}
    (hpeek : Frame.peekLen env.checksum rest Frame.walRec "wal record" = .error error) :
    Scanned env bytes offset (.ok ([], some offset)) := by
  refine .stops_here hrest hleft (fun record frame hframe hfront => ?_) fun len hok => ?_
  · rw [hframe.peekLen hfront hfits] at hpeek
    cases hpeek
  · rw [hpeek] at hok
    cases hok

theorem Scanned.past (hfits : bytes.length < 2 ^ 64) (hoffset : offset ≤ bytes.length) (hrest : bytes.drop offset = rest)
    (hleft : rest ≠ []) (hpeek : Frame.peekLen env.checksum rest Frame.walRec "wal record" = .ok len)
    (hpast : (offset + (Frame.headerLen + len) % 2 ^ 64) % 2 ^ 64 > bytes.length) :
    Scanned env bytes offset (.ok ([], some offset)) := by
  have hlen : rest.length = bytes.length - offset := by rw [← hrest, List.length_drop]
  have hlt : offset + (Frame.headerLen + len) % 2 ^ 64 < 2 ^ 64 := by
    have hmod : (Frame.headerLen + len) % 2 ^ 64 < 2 ^ 64 := Nat.mod_lt _ (by decide)
    omega
  refine .stops_here hrest hleft (fun record frame hframe hfront => ?_) fun len' hok => ?_
  · have hle := hfront.length_le
    have hsame := hframe.frameLen hfront (by omega) hpeek
    rw [Nat.mod_eq_of_lt hlt] at hpast
    omega
  · rw [hpeek] at hok
    rw [← Except.ok.inj hok]
    exact hlt

theorem Scanned.undecoded (hfits : bytes.length < 2 ^ 64) (hoffset : offset ≤ bytes.length) (hrest : bytes.drop offset = rest)
    (hleft : rest ≠ []) (hpeek : Frame.peekLen env.checksum rest Frame.walRec "wal record" = .ok len)
    (hshort : ¬(Frame.headerLen + len) % 2 ^ 64 > rest.length)
    (hnone : ∀ payload, Frame.decode env.checksum (rest.take ((Frame.headerLen + len) % 2 ^ 64)) Frame.walRec "wal record" =
      .ok payload → env.codec.fromBytes payload = none) : Scanned env bytes offset (.ok ([], some offset)) := by
  have hlen : rest.length = bytes.length - offset := by rw [← hrest, List.length_drop]
  refine .stops_here hrest hleft (fun record frame hframe hfront => ?_) fun len' hok => ?_
  · obtain ⟨payload, hdecode, hrecord⟩ := hframe.decode_take hfront (by omega) hpeek
    rw [hnone payload hdecode] at hrecord
    cases hrecord
  · rw [hpeek] at hok
    rw [← Except.ok.inj hok]
    omega

end Look

theorem scan_scanned (hfits : bytes.length < 2 ^ 64) (fuel offset : Nat) (hoffset : offset ≤ bytes.length)
    (hfuel : bytes.length ≤ offset + fuel) : Scanned env bytes offset (scan env bytes fuel offset) := by
  induction fuel generalizing offset with
  | zero =>
      have hnil : bytes.drop offset = [] := List.drop_eq_nil_of_le (by omega)
      exact .all (hnil ▸ .nil)
  | succ fuel ih =>
      rw [scan]
      by_cases hmore : offset < bytes.length
      case neg =>
        rw [if_neg hmore]
        have hnil : bytes.drop offset = [] := List.drop_eq_nil_of_le (by omega)
        exact .all (hnil ▸ .nil)
      rw [if_pos hmore]
      dsimp only
      generalize hrest : bytes.drop offset = rest
      have hlen : rest.length = bytes.length - offset := by rw [← hrest, List.length_drop]
      have hleft : rest ≠ [] := List.ne_nil_of_length_pos (by omega)
      split
      · next error hpeek => exact .unread (by omega) hrest hleft hpeek
      · next payloadLen hpeek =>
          split
          · next hpast => exact .past hfits hoffset hrest hleft hpeek hpast
          · next hin =>
              split
              · next hlong =>
                  -- the end of the frame has wrapped around
                  refine .wraps .nil hrest hpeek ?_
                  by_contra hlt
                  rw [List.length_nil, Nat.add_zero] at hlt
                  rw [Nat.mod_eq_of_lt (Nat.not_le.mp hlt)] at hin
                  omega
              · next hshort =>
                  split
                  · next error hdecode =>
                      refine .undecoded hfits hoffset hrest hleft hpeek hshort fun payload hok => ?_
                      rw [hdecode] at hok
                      cases hok
                  · next payload hdecode =>
                      split
                      · next hnone =>
                          refine .undecoded hfits hoffset hrest hleft hpeek hshort fun payload' hok => ?_
                          rw [hdecode] at hok
                          rw [← Except.ok.inj hok]
                          exact hnone
                      · next record hrecord =>
                          have hframe := wellFormed_of_decode hpeek rfl hshort hdecode hrecord
                          have hcut : (rest.take ((Frame.headerLen + payloadLen) % 2 ^ 64)).length =
                              (Frame.headerLen + payloadLen) % 2 ^ 64 := by
                            rw [List.length_take]
                            omega
                          have hpos : 0 < (Frame.headerLen + payloadLen) % 2 ^ 64 := by
                            have hhead := hframe.length
                            rw [hcut] at hhead
                            exact Nat.lt_of_lt_of_le (by decide) hhead
                          have hscanned := ih (offset + (Frame.headerLen + payloadLen) % 2 ^ 64) (by omega) (by omega)
                          refine hscanned.cons hframe (by rw [hcut]) ?_
                          rw [← List.drop_drop, hrest, List.take_append_drop]

/-- The header of a whole frame never claims more than there is. -/
theorem Recorded.tame {front tail : Bytes} {records : List (WalRecord τ ν)} {len start : Nat}
    (h : Recorded env records front) (hne : front ≠ []) (hfits : start + (front ++ tail).length < 2 ^ 64)
    (hpeek : Frame.peekLen env.checksum (front ++ tail) Frame.walRec "wal record" = .ok len) :
    start + (Frame.headerLen + len) % 2 ^ 64 < 2 ^ 64 := by
  cases h with
  | nil => exact absurd rfl hne
  | @cons record frame front records hframe hrest =>
      have hhead := hframe.length
      rw [hframe.peekLen ⟨front ++ tail, by rw [List.append_assoc]⟩ (by omega)] at hpeek
      rw [← Except.ok.inj hpeek, Nat.add_sub_cancel' hhead]
      rw [List.length_append, List.length_append] at hfits
      rw [Nat.mod_eq_of_lt (by omega)]
      omega

theorem Scanned.aborts {result : Except Error (List (WalRecord τ ν) × Option Nat)} (h : Scanned env bytes 0 result)
    (hfits : bytes.length < 2 ^ 64) (hwraps : Wraps env bytes) : result = .error .overflow := by
  obtain ⟨records, front, tail, len, hrecorded, rfl, hpeek, hfar⟩ := hwraps
  have hnil : tail ≠ [] := by
    rintro rfl
    obtain ⟨e, he⟩ : ∃ e, Frame.peekLen env.checksum [] Frame.walRec "wal record" = .error e :=
      Frame.peekLen_short _ (by decide)
    rw [he] at hpeek
    cases hpeek
  -- the frame in question is none of those recovery has read
  have hread : ∀ records' rest tail', Recorded env records' rest → tail = rest ++ tail' → rest = [] := by
    rintro records' rest tail' hrest rfl
    by_contra hne
    rw [List.length_append] at hfits
    have := hrest.tame hne hfits hpeek
    omega
  cases h with
  | @all records' h =>
      rw [List.drop_zero] at h
      rcases hrecorded.total h hfits (List.append_nil _).symm with ⟨more, rest, -, hrest, htail⟩ | ⟨more, rest, -, -, htail⟩
      · have hrestNil := hread more rest [] hrest htail
        exact absurd (by rw [htail, hrestNil, List.append_nil]) hnil
      · exact absurd (List.append_eq_nil_iff.mp htail.symm).2 hnil
  | @stops records' front' tail' h hdrop hmore hstop hsmall =>
      rw [List.drop_zero] at hdrop
      have hsame : tail = tail' ∧ front.length = front'.length := by
        rcases hrecorded.total h hfits hdrop with ⟨more, rest, hfront, hrest, htail⟩ | ⟨more, rest, hfront, hrest, htail⟩
        · have hrestNil := hread more rest tail' hrest htail
          rw [hrestNil] at htail hfront
          exact ⟨htail, by rw [hfront, List.append_nil]⟩
        · cases hrest with
          | nil => exact ⟨htail.symm, by rw [hfront, List.append_nil]⟩
          | @cons record frame rest more hframe hrest =>
              refine absurd ?_ (hstop record frame hframe)
              rw [htail, List.append_assoc]
              exact List.prefix_append _ _
      rw [← hsame.1] at hsmall
      have := hsmall len hpeek
      omega
  | wraps => rfl

theorem Recorded.not_wraps {records : List (WalRecord τ ν)} (h : Recorded env records bytes) (hfits : bytes.length < 2 ^ 64) :
    ¬Wraps env bytes := by
  intro hwraps
  have hall : Scanned env bytes 0 (.ok (records, none)) := .all h
  cases hall.aborts hfits hwraps

/-- Bytes that are whole frames throughout are their own longest run. -/
theorem Recorded.whole {records : List (WalRecord τ ν)} (h : Recorded env records bytes) (hfits : bytes.length < 2 ^ 64) :
    Longest env bytes records bytes := by
  have hfits' : (bytes ++ []).length < 2 ^ 64 := by rwa [List.append_nil]
  have hnone : ∀ record frame, WellFormed env record frame → ¬frame <+: ([] : Bytes) := by
    intro record frame hframe hfront
    have hlen := hframe.length
    rw [List.prefix_nil.mp hfront, List.length_nil, Frame.headerLen] at hlen
    omega
  have hlongest := h.longest hfits' hnone
  rwa [List.append_nil] at hlongest

theorem scan_recorded {records : List (WalRecord τ ν)} (h : Recorded env records bytes) (hfits : bytes.length < 2 ^ 64) :
    scan env bytes bytes.length 0 = .ok (records, none) := by
  have hscanned : Scanned env bytes 0 (scan env bytes bytes.length 0) :=
    scan_scanned hfits bytes.length 0 (Nat.zero_le _) (by omega)
  generalize scan env bytes bytes.length 0 = result at hscanned
  cases hscanned with
  | @all records' h' =>
      rw [List.drop_zero] at h'
      rw [((h.whole hfits).unique (h'.whole hfits)).1]
  | @stops records' front tail h' hdrop hmore hstop hsmall =>
      rw [List.drop_zero] at hdrop
      have hlongest' := h'.longest (hdrop ▸ hfits) hstop
      rw [← hdrop] at hlongest'
      have hsame := ((h.whole hfits).unique hlongest').2
      rw [hdrop] at hsame
      exact absurd (List.append_right_eq_self.mp hsame) hmore
  | wraps h' hdrop hpeek hwraps =>
      refine absurd ⟨_, _, _, _, h', hdrop, hpeek, ?_⟩ (h.not_wraps hfits)
      omega

end Scan

namespace WalFile

variable {env : Env τ ν} {f f' : WalFile} {records : List (WalRecord τ ν)}

/-- A log file whose handle is up to date and whose bytes are well-formed frames of these records. -/
structure Reads (env : Env τ ν) (f : WalFile) (records : List (WalRecord τ ν)) : Prop where
  header : f.disk.header = f.header
  len : f.len = f.disk.bytes.length
  recorded : Recorded env records f.disk.bytes

theorem Reads.recover (h : f.Reads env records) : f.recover env = .ok (⟨f.header.generation, records, false⟩, f) := by
  simp only [WalFile.recover, scan_recorded h.recorded f.disk.fits, bind, Except.bind, pure, Except.pure]

theorem Reads.appendGroup {more : List (WalRecord τ ν)} {frames : List Bytes} (h : f.Reads env records)
    (hframes : more.mapM (encodeRecord env) = .ok frames) (hok : f.appendGroup frames = .ok f') :
    f'.Reads env (records ++ more) ∧ f'.header = f.header := by
  have hmore := (Framed.of_mapM hframes).recorded
  unfold WalFile.appendGroup at hok
  split at hok
  · next hnone =>
      obtain rfl := Except.ok.inj hok
      rw [List.isEmpty_iff] at hnone
      subst hnone
      have hsame := h.recorded.append hmore
      rw [List.flatten_nil, List.append_nil] at hsame
      exact ⟨⟨h.header, h.len, hsame⟩, rfl⟩
  · split at hok
    · next hfits =>
        obtain rfl := Except.ok.inj hok
        rw [written_end h.len] at hfits
        refine ⟨⟨h.header, ?_, ?_⟩, rfl⟩
        · dsimp only
          rw [written_end h.len, h.len, List.length_append]
        · dsimp only
          rw [written_end h.len]
          exact h.recorded.append hmore
    · cases hok

theorem Reads.appendGroups {groups : List (List (WalRecord τ ν))} {frames : List (List Bytes)} (h : f.Reads env records)
    (hframes : groups.mapM (List.mapM (encodeRecord env)) = .ok frames)
    (hok : frames.foldlM WalFile.appendGroup f = .ok f') :
    f'.Reads env (records ++ groups.flatten) ∧ f'.header = f.header := by
  induction groups generalizing f records frames with
  | nil =>
      obtain rfl := Except.ok.inj hframes
      obtain rfl := Except.ok.inj hok
      rw [List.flatten_nil, List.append_nil]
      exact ⟨h, rfl⟩
  | cons group groups ih =>
      rw [List.mapM_cons] at hframes
      obtain ⟨first, hfirst, hframes⟩ := bind_eq_ok.mp hframes
      obtain ⟨rest, hrest, hframes⟩ := bind_eq_ok.mp hframes
      obtain rfl := Except.ok.inj hframes
      rw [List.foldlM_cons] at hok
      obtain ⟨next, hnext, hok⟩ := bind_eq_ok.mp hok
      obtain ⟨hreads, hheader⟩ := h.appendGroup hfirst hnext
      obtain ⟨hreads', hheader'⟩ := ih hreads hrest hok
      rw [List.flatten_cons, ← List.append_assoc]
      exact ⟨hreads', hheader'.trans hheader⟩

/-- Recovery finds the good prefix: it returns the records of the longest run of well-formed frames, leaves the file with
exactly these, and what is appended afterwards is read back behind them. -/
def FindsGoodPrefix (env : Env τ ν) (disk : LogFile) : Prop :=
  ∃ records front truncated f, Longest env disk.bytes records front ∧
    (openLog disk).recover env = .ok (⟨disk.header.generation, records, truncated⟩, f) ∧
    f.disk.header = disk.header ∧ f.disk.bytes = front ∧ f.header = disk.header ∧ f.len = front.length ∧
    f.recover env = .ok (⟨disk.header.generation, records, false⟩, f) ∧
    ∀ (groups : List (List (WalRecord τ ν))) frames f',
      groups.mapM (List.mapM (encodeRecord env)) = .ok frames → frames.foldlM appendGroup f = .ok f' →
        f'.recover env = .ok (⟨disk.header.generation, records ++ groups.flatten, false⟩, f')

theorem recover_reads {disk : LogFile} (htame : ¬Wraps env disk.bytes) :
    ∃ records front truncated f, Longest env disk.bytes records front ∧
      (openLog disk).recover env = .ok (⟨disk.header.generation, records, truncated⟩, f) ∧
      f.Reads env records ∧ f.disk.bytes = front ∧ f.header = disk.header := by
  have hscanned : Scanned env disk.bytes 0 (scan env disk.bytes disk.bytes.length 0) :=
    scan_scanned disk.fits disk.bytes.length 0 (Nat.zero_le _) (by omega)
  generalize hscan : scan env disk.bytes disk.bytes.length 0 = result at hscanned
  cases hscanned with
  | @all records h =>
      rw [List.drop_zero] at h
      have hreads : (openLog disk).Reads env records := ⟨rfl, rfl, h⟩
      exact ⟨records, disk.bytes, false, openLog disk, h.whole disk.fits, hreads.recover, hreads, rfl, rfl⟩
  | @stops records front tail h hdrop hmore hstop hsmall =>
      rw [List.drop_zero] at hdrop
      have hlongest := h.longest (hdrop ▸ disk.fits) hstop
      rw [← hdrop] at hlongest
      have hrecover : (openLog disk).recover env =
          .ok (⟨disk.header.generation, records, true⟩, (openLog disk).cutTo front.length) := by
        simp only [WalFile.recover, openLog, hscan, bind, Except.bind, pure, Except.pure, Nat.zero_add]
      have hfront : ((openLog disk).cutTo front.length).disk.bytes = front := by
        change disk.bytes.take front.length = front
        rw [hdrop, List.take_left' rfl]
      refine ⟨records, front, true, _, hlongest, hrecover, ⟨rfl, ?_, ?_⟩, hfront, rfl⟩
      · rw [hfront]
        rfl
      · rw [hfront]
        exact h
  | wraps h hdrop hpeek hwraps =>
      refine absurd ⟨_, _, _, _, h, hdrop, hpeek, ?_⟩ htame
      omega

theorem recover_wraps {disk : LogFile} (hwraps : Wraps env disk.bytes) : (openLog disk).recover env = .error .overflow := by
  have hscanned : Scanned env disk.bytes 0 (scan env disk.bytes disk.bytes.length 0) :=
    scan_scanned disk.fits disk.bytes.length 0 (Nat.zero_le _) (by omega)
  simp only [WalFile.recover, openLog, hscanned.aborts disk.fits hwraps, bind, Except.bind]

/-- Recovery finds the good prefix of a log unless the length of the frame behind it wraps around. -/
theorem finds_good_prefix_iff (env : Env τ ν) (disk : LogFile) : FindsGoodPrefix env disk ↔ ¬Wraps env disk.bytes := by
  constructor
  · rintro ⟨records, front, truncated, f, -, hrecover, -⟩ hwraps
    rw [recover_wraps hwraps] at hrecover
    cases hrecover
  · intro htame
    obtain ⟨records, front, truncated, f, hlongest, hrecover, hreads, hfront, hheader⟩ := recover_reads htame
    have hagain := hreads.recover
    rw [hheader] at hagain
    refine ⟨records, front, truncated, f, hlongest, hrecover, hreads.header.trans hheader, hfront, hheader,
      hfront ▸ hreads.len, hagain, fun groups frames f' hframes hok => ?_⟩
    obtain ⟨hreads', hheader'⟩ := hreads.appendGroups hframes hok
    rw [hreads'.recover, hheader', hheader]

end WalFile

section Wrapping

/-- Logs of a few inserts. -/
def logEnv : Env Unit Nat :=
  plainEnv plainOptions [.insert 1 0 ⟨[()], [[7]]⟩, .insert 2 1 ⟨[()], [[8]]⟩, .insert 3 2 ⟨[()], [[9]]⟩]

def framesOf (records : List (WalRecord Unit Nat)) : List Bytes :=
  records.filterMap fun record => (encodeRecord logEnv record).toOption

/-- An intact frame header that claims all of the address space but a few bytes. -/
def wrappingHeader : Bytes :=
  let head := leBytes Frame.walRec ++ leBytes (2 ^ 64 - 33) ++ leBytes 0
  head ++ leBytes (logEnv.checksum head).toNat

/-- A log with one good record and such a header behind it. -/
def wrappingLog : LogFile :=
  ⟨⟨1, []⟩, (framesOf [.insert 1 0 ⟨[()], [[7]]⟩]).flatten ++ wrappingHeader, by decide +kernel⟩

/-- The end of the second frame comes out before its start, and the slice behind the comparison is out of bounds. -/
theorem wrapping_length_aborts : ¬WalFile.FindsGoodPrefix logEnv wrappingLog := by
  have haborts : (match (WalFile.openLog wrappingLog).recover logEnv with
      | .ok _ => true
      | .error _ => false) = false := by decide +kernel
  rintro ⟨records, front, truncated, f, -, hrecover, -⟩
  rw [hrecover] at haborts
  cases haborts

end Wrapping

end LocalTables
