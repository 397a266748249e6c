import LocalTables.Layout.Manifest
import LocalTables.Lib.Except

/-! The envelope around every encoded payload (`layout/frame.rs`): a region tag, the payload length,
a checksum of the payload and a checksum of the header. -/

namespace LocalTables

abbrev Bytes := List UInt8

/-- The eight little-endian bytes of a `u64`. -/
def leBytes (n : Nat) : Bytes := (List.range 8).map fun i => UInt8.ofNat (n / 256 ^ i)

def ofLe (bytes : Bytes) : Nat := bytes.foldr (fun byte rest => byte.toNat + 256 * rest) 0

@[simp] theorem length_leBytes (n : Nat) : (leBytes n).length = 8 := by simp [leBytes]

theorem ofLe_leBytes {n : Nat} (h : n < 2 ^ 64) : ofLe (leBytes n) = n := by
  simp only [ofLe, leBytes, List.range_succ, List.range_zero, List.nil_append, List.cons_append, List.map_cons,
    List.map_nil, List.foldr_cons, List.foldr_nil, UInt8.toNat_ofNat']
  omega

/-- Eight bytes are the number they are read as. -/
theorem leBytes_ofLe {bytes : Bytes} (h : bytes.length = 8) : leBytes (ofLe bytes) = bytes := by
  match bytes, h with
  | [a, b, c, d, e, f, g, i], _ =>
      have ha := a.toNat_lt
      have hb := b.toNat_lt
      have hc := c.toNat_lt
      have hd := d.toNat_lt
      have he := e.toNat_lt
      have hf := f.toNat_lt
      have hg := g.toNat_lt
      have hi := i.toNat_lt
      simp only [ofLe, leBytes, List.foldr_cons, List.foldr_nil, List.range_succ, List.range_zero, List.nil_append,
        List.cons_append, List.map_cons, List.map_nil, List.cons.injEq, and_true, ← UInt8.toNat_inj, UInt8.toNat_ofNat']
      omega

namespace Frame

/-- Bytes the header occupies ahead of the payload. -/
def headerLen : Nat := 32

/-- A region tag is the little-endian reading of its eight letters. -/
def tagOf (letters : String) : Nat := ofLe (letters.toList.map fun letter => UInt8.ofNat letter.toNat)

/-- The tag of a write-ahead log record. -/
def walRec : Nat := tagOf "LTWALREC"

variable (checksum : Bytes → UInt64)

/-- The 24 bytes the frame checksum covers. -/
def head (tag : Nat) (payload : Bytes) : Bytes :=
  leBytes tag ++ leBytes payload.length ++ leBytes (checksum payload).toNat

/-- Wrap `payload` in a frame. -/
def encode (tag : Nat) (payload : Bytes) : Bytes :=
  head checksum tag payload ++ leBytes (checksum (head checksum tag payload)).toNat ++ payload

/-- Read the payload length of a frame without validating the payload itself. -/
def peekLen (bytes : Bytes) (expectTag : Nat) (region : String) : Except Error Nat :=
  if bytes.length < headerLen then
    .error (.corrupt s!"{region}: frame header needs {headerLen} bytes, found {bytes.length}")
  else
    let tag := ofLe (bytes.take 8)
    let len := ofLe ((bytes.drop 8).take 8)
    let storedFrameHash := ofLe ((bytes.drop 24).take 8)
    let found := (checksum (bytes.take 24)).toNat
    if found ≠ storedFrameHash then .error (.checksum region storedFrameHash found)
    else if tag ≠ expectTag then .error (.badMagic s!"{region}: expected tag {expectTag}, found {tag}")
    else .ok len

/-- Validate a frame and return its payload bytes. -/
def decode (bytes : Bytes) (expectTag : Nat) (region : String) : Except Error Bytes := do
  let len ← peekLen checksum bytes expectTag region
  if headerLen + len ≥ 2 ^ 64 then
    throw (.corrupt s!"{region}: frame length overflows")
  else if bytes.length < headerLen + len then
    throw (.corrupt s!"{region}: frame claims {len} payload bytes, only {bytes.length - headerLen} available")
  else
    let payload := (bytes.drop headerLen).take len
    let stored := ofLe ((bytes.drop 16).take 8)
    let found := (checksum payload).toNat
    if found ≠ stored then
      throw (.checksum region stored found)
    else
      return payload

variable {checksum} {tag : Nat} {payload rest : Bytes}

@[simp] theorem length_head : (head checksum tag payload).length = 24 := by simp [head]

theorem length_encode : (encode checksum tag payload).length = headerLen + payload.length := by
  simp only [encode, List.length_append, length_head, length_leBytes, headerLen]

/-- The fields of a frame, read back from bytes that hold at least its header. -/
theorem fields (checksum : Bytes → UInt64) (tag : Nat) (payload rest : Bytes) {bytes : Bytes}
    (h : bytes = encode checksum tag payload ++ rest) :
    bytes.take 24 = head checksum tag payload ∧ bytes.take 8 = leBytes tag ∧
      (bytes.drop 8).take 8 = leBytes payload.length ∧
      (bytes.drop 16).take 8 = leBytes (checksum payload).toNat ∧
      (bytes.drop 24).take 8 = leBytes (checksum (head checksum tag payload)).toNat ∧
      bytes.drop 32 = payload ++ rest := by
  have hflat : bytes = leBytes tag ++ (leBytes payload.length ++ (leBytes (checksum payload).toNat ++
      (leBytes (checksum (head checksum tag payload)).toNat ++ (payload ++ rest)))) := by
    rw [h, encode]
    simp only [head, List.append_assoc]
  refine ⟨?_, ?_, ?_, ?_, ?_, ?_⟩
  · rw [h, encode, List.append_assoc, List.append_assoc, List.take_left' length_head]
  · rw [hflat, List.take_left' (length_leBytes _)]
  · rw [hflat, List.drop_left' (length_leBytes _), List.take_left' (length_leBytes _)]
  · rw [hflat, ← List.append_assoc, List.drop_left' (by simp), List.take_left' (length_leBytes _)]
  · rw [hflat, ← List.append_assoc, ← List.append_assoc, List.drop_left' (by simp),
      List.take_left' (length_leBytes _)]
  · rw [hflat, ← List.append_assoc, ← List.append_assoc, ← List.append_assoc, List.drop_left' (by simp)]

theorem peekLen_encode (payload rest : Bytes) (region : String) (htag : tag < 2 ^ 64) (hlen : payload.length < 2 ^ 64) :
    peekLen checksum (encode checksum tag payload ++ rest) tag region = .ok payload.length := by
  obtain ⟨hhead, htake, hpayload, -, hhash, -⟩ := fields checksum tag payload rest rfl
  have hlong : ¬(encode checksum tag payload ++ rest).length < headerLen := by
    rw [List.length_append, length_encode]
    omega
  have hbound := (checksum (head checksum tag payload)).toNat_lt
  rw [peekLen, if_neg hlong]
  simp only [hhead, htake, hpayload, hhash, ofLe_leBytes htag, ofLe_leBytes hlen, ofLe_leBytes hbound,
    ne_eq, not_true_eq_false, if_false]

theorem decode_encode (checksum : Bytes → UInt64) (payload rest : Bytes) (region : String) (htag : tag < 2 ^ 64) (hlen : headerLen + payload.length < 2 ^ 64) :
    decode checksum (encode checksum tag payload ++ rest) tag region = .ok payload := by
  obtain ⟨-, -, -, hsum, -, hrest⟩ := fields checksum tag payload rest rfl
  have hpeek : peekLen checksum (encode checksum tag payload ++ rest) tag region = .ok payload.length :=
    peekLen_encode payload rest region htag (by omega)
  have hlong : ¬(encode checksum tag payload ++ rest).length < headerLen + payload.length := by
    rw [List.length_append, length_encode]
    omega
  have hbound := (checksum payload).toNat_lt
  have hwhole : ((encode checksum tag payload ++ rest).drop headerLen).take payload.length = payload := by
    rw [show headerLen = 32 from rfl, hrest, List.take_left' rfl]
  simp only [decode, hpeek, bind, Except.bind, hsum, hwhole, ofLe_leBytes hbound, ge_iff_le, Nat.not_le.mpr hlen,
    hlong, if_false, ne_eq, not_true_eq_false, pure, Except.pure]

/-- A frame cut inside its header does not even give its length. -/
theorem peekLen_short {bytes : Bytes} (region : String) (h : bytes.length < headerLen) :
    ∃ e, peekLen checksum bytes tag region = .error e := by
  rw [peekLen, if_pos h]
  exact ⟨_, rfl⟩

theorem peekLen_take {bytes : Bytes} {count : Nat} (region : String) (hcount : headerLen ≤ count)
    (hlen : headerLen ≤ bytes.length) :
    peekLen checksum (bytes.take count) tag region = peekLen checksum bytes tag region := by
  have hlong : ¬(bytes.take count).length < headerLen := by
    rw [List.length_take]
    omega
  have hpiece : ∀ start n, start + n ≤ headerLen → ((bytes.take count).drop start).take n =
      (bytes.drop start).take n := by
    intro start n hn
    rw [List.drop_take, List.take_take, Nat.min_eq_left (by omega)]
  have htag := hpiece 0 8 (by decide)
  have hsum := hpiece 0 24 (by decide)
  simp only [List.drop_zero] at htag hsum
  have hlong' : ¬bytes.length < headerLen := by omega
  rw [peekLen, peekLen, if_neg hlong, if_neg hlong']
  simp only [htag, hsum, hpiece 8 8 (by decide), hpiece 24 8 (by decide)]

section Decode

variable {bytes : Bytes} {region : String}

/-- What the header of a frame says, read back from its bytes. -/
theorem peekLen_ok {len : Nat} (h : peekLen checksum bytes tag region = .ok len) :
    headerLen ≤ bytes.length ∧ ofLe (bytes.take 8) = tag ∧ ofLe ((bytes.drop 8).take 8) = len ∧
      (checksum (bytes.take 24)).toNat = ofLe ((bytes.drop 24).take 8) := by
  unfold peekLen at h
  split at h
  · cases h
  · next hlong =>
      dsimp only at h
      split at h
      · cases h
      · next hsum =>
          split at h
          · cases h
          · next htag =>
              refine ⟨Nat.le_of_not_lt hlong, not_not.mp htag, Except.ok.inj h, not_not.mp hsum⟩

theorem decode_ok (h : decode checksum bytes tag region = .ok payload) :
    ∃ len, peekLen checksum bytes tag region = .ok len ∧ headerLen + len < 2 ^ 64 ∧ headerLen + len ≤ bytes.length ∧
      payload = (bytes.drop headerLen).take len ∧ (checksum payload).toNat = ofLe ((bytes.drop 16).take 8) := by
  obtain ⟨len, hlen, h⟩ := bind_eq_ok.mp h
  obtain ⟨hwraps, h⟩ := ite_throw_eq_ok.mp h
  obtain ⟨hshort, h⟩ := ite_throw_eq_ok.mp h
  dsimp only at h
  obtain ⟨hsum, h⟩ := ite_throw_eq_ok.mp h
  obtain rfl := Except.ok.inj h
  exact ⟨len, hlen, Nat.lt_of_not_le hwraps, Nat.le_of_not_lt hshort, rfl, not_not.mp hsum⟩

/-- Bytes that decode start with the frame of their payload. -/
theorem encode_prefix_of_decode (h : decode checksum bytes tag region = .ok payload) : encode checksum tag payload <+: bytes := by
  obtain ⟨len, hpeek, -, hle, rfl, hsum⟩ := decode_ok h
  obtain ⟨-, htag, hfield, hhash⟩ := peekLen_ok hpeek
  have hpiece : ∀ start n, start + n ≤ headerLen → ((bytes.drop start).take n).length = n := by
    intro start n hn
    rw [List.length_take, List.length_drop]
    omega
  have htake : ((bytes.drop headerLen).take len).length = len := by
    rw [List.length_take, List.length_drop]
    omega
  have h0 : bytes.take 8 = leBytes tag := by
    rw [← htag, leBytes_ofLe]
    exact hpiece 0 8 (by decide)
  have h8 : (bytes.drop 8).take 8 = leBytes len := by rw [← hfield, leBytes_ofLe (hpiece 8 8 (by decide))]
  have h16 : (bytes.drop 16).take 8 = leBytes (checksum ((bytes.drop headerLen).take len)).toNat := by
    rw [hsum, leBytes_ofLe (hpiece 16 8 (by decide))]
  have h24 : (bytes.drop 24).take 8 = leBytes (checksum (bytes.take 24)).toNat := by
    rw [hhash, leBytes_ofLe (hpiece 24 8 (by decide))]
  have hcut : ∀ start n, (bytes.drop start) = (bytes.drop start).take n ++ bytes.drop (start + n) := by
    intro start n
    rw [← List.drop_drop, List.take_append_drop]
  have hhead : bytes.take 24 = head checksum tag ((bytes.drop headerLen).take len) := by
    rw [head, htake, ← h0, ← h8, ← h16, show 24 = 8 + 8 + 8 from rfl, List.take_add, List.take_add]
  have hwhole : bytes = bytes.take 24 ++ ((bytes.drop 24).take 8 ++ ((bytes.drop headerLen).take len ++
      bytes.drop (headerLen + len))) := by
    rw [← hcut headerLen len, show headerLen = 24 + 8 from rfl, ← hcut 24 8, List.take_append_drop]
  refine ⟨bytes.drop (headerLen + len), ?_⟩
  rw [encode, ← hhead, ← h24, List.append_assoc, List.append_assoc]
  exact hwhole.symm

/-- Bytes that decode and are no longer than they say are the frame of their payload. -/
theorem eq_encode_of_decode (h : decode checksum bytes tag region = .ok payload)
    (hlen : bytes.length = headerLen + payload.length) : bytes = encode checksum tag payload :=
  ((encode_prefix_of_decode h).eq_of_length (length_encode.trans hlen.symm)).symm

/-- A frame at the start of some bytes is told by them. -/
theorem encode_append_inj {other rest' : Bytes} (htag : tag < 2 ^ 64) (hlen : headerLen + payload.length < 2 ^ 64)
    (hother : headerLen + other.length < 2 ^ 64) (heq : encode checksum tag payload ++ rest = encode checksum tag other ++ rest') :
    payload = other ∧ rest = rest' := by
  have hdecode := decode_encode checksum payload rest "" htag hlen
  rw [heq, decode_encode checksum other rest' "" htag hother] at hdecode
  obtain rfl := Except.ok.inj hdecode
  exact ⟨rfl, List.append_cancel_left heq⟩

/-- A frame that is cut short does not decode. -/
theorem decode_strict_prefix (htag : tag < 2 ^ 64) (hlen : headerLen + payload.length < 2 ^ 64)
    (hstarts : bytes <+: encode checksum tag payload) (hstrict : bytes ≠ encode checksum tag payload) :
    ∃ e, decode checksum bytes tag region = .error e := by
  cases h : decode checksum bytes tag region with
  | error e => exact ⟨e, rfl⟩
  | ok found =>
      have hfound := encode_prefix_of_decode h
      have hwhole : encode checksum tag found <+: encode checksum tag payload := hfound.trans hstarts
      have hshorter : found.length ≤ payload.length := by
        have := hwhole.length_le
        rw [length_encode, length_encode] at this
        omega
      obtain ⟨rest, hrest⟩ := hwhole
      rw [← List.append_nil (encode checksum tag payload)] at hrest
      obtain ⟨hsame, -⟩ := encode_append_inj htag (by omega) hlen hrest
      rw [hsame] at hfound
      exact absurd (hstarts.eq_of_length_le hfound.length_le) hstrict

theorem decode_other_tag {expected : Nat} (htag : tag < 2 ^ 64) (hother : expected ≠ tag) :
    ∃ e, decode checksum (encode checksum tag payload ++ rest) expected region = .error e := by
  cases h : decode checksum (encode checksum tag payload ++ rest) expected region with
  | error e => exact ⟨e, rfl⟩
  | ok found =>
      obtain ⟨len, hpeek, -⟩ := decode_ok h
      obtain ⟨-, hfound, -⟩ := peekLen_ok hpeek
      obtain ⟨-, htake, -⟩ := fields checksum tag payload rest rfl
      rw [htake, ofLe_leBytes htag] at hfound
      exact absurd hfound.symm hother

theorem flatMap_encode_ne_nil {payloads : List Bytes} : (payload :: payloads).flatMap (encode checksum tag) ≠ [] := by
  intro h
  have hnone : encode checksum tag payload = [] := (List.append_eq_nil_iff.mp h).1
  have hlen : (encode checksum tag payload).length = headerLen + payload.length := length_encode
  rw [hnone, List.length_nil, headerLen] at hlen
  omega

/-- Frames of one tag, one after the other, split in one way. -/
theorem flatMap_encode_inj (htag : tag < 2 ^ 64) {payloads others : List Bytes}
    (hpayloads : ∀ payload ∈ payloads, headerLen + payload.length < 2 ^ 64)
    (hothers : ∀ payload ∈ others, headerLen + payload.length < 2 ^ 64)
    (h : payloads.flatMap (encode checksum tag) = others.flatMap (encode checksum tag)) : payloads = others := by
  induction payloads generalizing others with
  | nil =>
      cases others with
      | nil => rfl
      | cons other others => exact absurd h.symm flatMap_encode_ne_nil
  | cons payload payloads ih =>
      cases others with
      | nil => exact absurd h flatMap_encode_ne_nil
      | cons other others =>
          obtain ⟨rfl, hrest⟩ := encode_append_inj htag (hpayloads _ List.mem_cons_self) (hothers _ List.mem_cons_self) h
          rw [ih (fun p hp => hpayloads p (List.mem_cons_of_mem _ hp)) (fun p hp => hothers p (List.mem_cons_of_mem _ hp)) hrest]

/-- A frame decodes to what was encoded, and to nothing else: not when it is cut short, not under another tag. -/
theorem decodes_what_was_encoded (checksum : Bytes → UInt64) (tag : UInt64) (region : String) :
    (∀ payload rest : Bytes, payload.length < 2 ^ 64 - headerLen →
      decode checksum (encode checksum tag.toNat payload ++ rest) tag.toNat region = .ok payload ∧
      peekLen checksum (encode checksum tag.toNat payload ++ rest) tag.toNat region = .ok payload.length) ∧
    (∀ bytes payload : Bytes, decode checksum bytes tag.toNat region = .ok payload →
      encode checksum tag.toNat payload <+: bytes) ∧
    (∀ payload bytes : Bytes, payload.length < 2 ^ 64 - headerLen → bytes <+: encode checksum tag.toNat payload →
      bytes ≠ encode checksum tag.toNat payload → ∃ e, decode checksum bytes tag.toNat region = .error e) ∧
    (∀ (payload rest : Bytes) (other : UInt64), other ≠ tag →
      ∃ e, decode checksum (encode checksum tag.toNat payload ++ rest) other.toNat region = .error e) ∧
    ∀ payloads others : List Bytes, (∀ payload ∈ payloads, payload.length < 2 ^ 64 - headerLen) →
      (∀ payload ∈ others, payload.length < 2 ^ 64 - headerLen) →
      payloads.flatMap (encode checksum tag.toNat) = others.flatMap (encode checksum tag.toNat) → payloads = others := by
  have htag := tag.toNat_lt
  have hfits : ∀ {len : Nat}, len < 2 ^ 64 - headerLen → headerLen + len < 2 ^ 64 := by
    intro len hlen
    omega
  refine ⟨fun payload rest hlen => ?_, fun bytes payload => encode_prefix_of_decode, fun payload bytes hlen => ?_,
    fun payload rest other hother => ?_, fun payloads others hpayloads hothers => ?_⟩
  · exact ⟨decode_encode checksum payload rest region htag (hfits hlen), peekLen_encode payload rest region htag (by omega)⟩
  · exact decode_strict_prefix htag (hfits hlen)
  · exact decode_other_tag htag fun heq => hother (UInt64.toNat_inj.mp heq)
  · exact flatMap_encode_inj htag (fun p hp => hfits (hpayloads p hp)) fun p hp => hfits (hothers p hp)

/-- Under a checksum that is always zero: a short payload comes back from the front of more bytes, and three of its frame's
bytes do not decode. -/
theorem short_payload_decodes :
    decode (fun _ => 0) (encode (fun _ => 0) (7 : UInt64).toNat [1, 2] ++ [9]) (7 : UInt64).toNat "frame" = .ok [1, 2] ∧
      ∃ e, decode (fun _ => 0) ((encode (fun _ => 0) (7 : UInt64).toNat [1, 2]).take 3) (7 : UInt64).toNat "frame" = .error e := by
  obtain ⟨hwhole, -, hcut, -⟩ := decodes_what_was_encoded (fun _ => 0) 7 "frame"
  exact ⟨(hwhole [1, 2] [9] (by decide)).1, hcut [1, 2] _ (by decide) (List.take_prefix _ _) (by decide)⟩

end Decode

end Frame

end LocalTables
