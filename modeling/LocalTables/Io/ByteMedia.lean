import LocalTables.Io.Media
import LocalTables.Layout.Frame
import LocalTables.Lib.Memory

/-! A table file as bytes. What the engine stores is framed and checksummed, the header and the meta pages in regions of a
fixed size; a read takes the bytes of an extent and undoes this. `ByteMedia` is the medium these make. -/

namespace LocalTables

variable {τ ν : Type}

/-- How values become payloads: what the archive library, the schema encoding and the bitmaps promise. A payload with its
frame is shorter than a machine word can count. -/
structure Payload (α : Type) where
  toBytes : α → Except Error Bytes
  fromBytes : Bytes → Except Error α
  roundTrip : ∀ value payload, toBytes value = .ok payload → fromBytes payload = .ok value
  fits : ∀ value payload, toBytes value = .ok payload → Frame.headerLen + payload.length < 2 ^ 64

/-- How a segment becomes bytes, with the place of the frame of its metadata in them. No two become the same. -/
structure SegmentFormat (ν : Type) where
  build : SegmentData ν → Except Error (Bytes × Extent)
  injective : ∀ {data other placed}, build data = .ok placed → build other = .ok placed → data = other
  nonempty : ∀ {data bytes metaFrame}, build data = .ok (bytes, metaFrame) → 0 < bytes.length

open Classical in
/-- What the bytes of a segment were built from. -/
noncomputable def SegmentFormat.read (format : SegmentFormat ν) (bytes : Bytes) (metaFrame : Extent) :
    Except Error (SegmentData ν) :=
  if h : ∃ data, format.build data = .ok (bytes, metaFrame) then .ok h.choose else .error (.corrupt "not a segment")

theorem SegmentFormat.read_eq_ok {format : SegmentFormat ν} {bytes : Bytes} {metaFrame : Extent} {data : SegmentData ν} :
    format.read bytes metaFrame = .ok data ↔ format.build data = .ok (bytes, metaFrame) := by
  unfold read
  by_cases h : ∃ data, format.build data = .ok (bytes, metaFrame)
  · rw [dif_pos h]
    constructor
    · intro hread
      rw [← Except.ok.inj hread]
      exact h.choose_spec
    · intro hbuild
      rw [format.injective h.choose_spec hbuild]
  · rw [dif_neg h]
    constructor
    · intro hread
      cases hread
    · intro hbuild
      exact absurd ⟨data, hbuild⟩ h

/-- What the file layer takes from elsewhere. -/
structure Codecs (τ ν : Type) where
  checksum : Bytes → UInt64
  header : Payload FileHeader
  metaPage : Payload MetaPage
  manifest : Payload Manifest
  schema : Payload (Schema τ)
  deletes : Payload (Finset Nat)
  segments : SegmentFormat ν

namespace Frame

def headerTag : Nat := tagOf "LTHEADER"

def metaTag : Nat := tagOf "LTMETAPG"

def manifestTag : Nat := tagOf "LTMANIFE"

def deletesTag : Nat := tagOf "LTDELVEC"

def schemaTag : Nat := tagOf "LTSCHEMA"

theorem tags_lt : ∀ tag ∈ [headerTag, metaTag, manifestTag, deletesTag, schemaTag], tag < 2 ^ 64 := by decide

end Frame

namespace Codecs

variable (C : Codecs τ ν)

/-- A framed payload in a region of a fixed size, zero padded (`write_region`). -/
def writeRegion (regionLen tag : Nat) (payload : Bytes) (region : String) : Except Error Bytes :=
  let frame := Frame.encode C.checksum tag payload
  if frame.length > regionLen then
    .error (.unsupported s!"{region} needs {frame.length} bytes, the region holds {regionLen}")
  else .ok (frame ++ List.replicate (regionLen - frame.length) 0)

/-- A framed payload. -/
def framed {α : Type} (tag : Nat) (codec : Payload α) (value : α) : Except Error Bytes := do
  let payload ← codec.toBytes value
  return Frame.encode C.checksum tag payload

/-- The bytes the engine hands to the file. -/
def encode : Blob τ ν → Except Error Bytes
  | .header header => do
      let payload ← C.header.toBytes header
      C.writeRegion headerSize Frame.headerTag payload "header"
  | .metaPage page => do
      let payload ← C.metaPage.toBytes page
      C.writeRegion metaPageSize Frame.metaTag payload "meta page"
  | .manifest manifest => C.framed Frame.manifestTag C.manifest manifest
  | .schema schema => C.framed Frame.schemaTag C.schema schema
  | .segment data => do
      let (bytes, _) ← C.segments.build data
      return bytes
  | .deletes rows => C.framed Frame.deletesTag C.deletes rows

/-- Take a payload out of its frame, and what it stands for out of the payload. -/
def unframed {α : Type} (tag : Nat) (codec : Payload α) (region : String) (bytes : Bytes) : Except Error α := do
  let payload ← Frame.decode C.checksum bytes tag region
  codec.fromBytes payload

/-- What the engine makes of the bytes it has read. -/
noncomputable def decode (bytes : Bytes) : Kind → Except Error (Blob τ ν)
  | .header => Blob.header <$> C.unframed Frame.headerTag C.header "header" bytes
  | .metaPage => Blob.metaPage <$> C.unframed Frame.metaTag C.metaPage "meta page" bytes
  | .manifest => Blob.manifest <$> C.unframed Frame.manifestTag C.manifest "manifest" bytes
  | .schema => Blob.schema <$> C.unframed Frame.schemaTag C.schema "schema" bytes
  | .segment metaFrame => Blob.segment <$> C.segments.read bytes metaFrame
  | .deletes => Blob.deletes <$> C.unframed Frame.deletesTag C.deletes "delete vector" bytes

/-- Where the builder put the frame of a segment's metadata. -/
def metaExtent (data : SegmentData ν) : Extent :=
  match C.segments.build data with
  | .ok (_, metaFrame) => metaFrame
  | .error _ => Extent.empty

/-- Bytes a blob takes once encoded. -/
def size (blob : Blob τ ν) : Except Error Nat := do
  let bytes ← C.encode blob
  return bytes.length

section Encode

variable {C} {α : Type} {codec : Payload α} {value : α} {tag regionLen : Nat} {region : String} {bytes rest : Bytes}

theorem length_framed (h : C.framed tag codec value = .ok bytes) : 0 < bytes.length := by
  obtain ⟨payload, -, h⟩ := bind_eq_ok.mp h
  rw [← Except.ok.inj h, Frame.length_encode, Frame.headerLen]
  omega

/-- A frame gives its value back, whatever lies behind it. -/
theorem unframed_framed (htag : tag < 2 ^ 64) (h : C.framed tag codec value = .ok bytes) (region : String) (rest : Bytes) :
    C.unframed tag codec region (bytes ++ rest) = .ok value := by
  obtain ⟨payload, hpayload, h⟩ := bind_eq_ok.mp h
  obtain rfl := Except.ok.inj h
  have hdecode := Frame.decode_encode C.checksum payload rest region htag (codec.fits value payload hpayload)
  unfold unframed
  rw [hdecode]
  exact codec.roundTrip value payload hpayload

theorem writeRegion_ok {payload : Bytes} (h : C.writeRegion regionLen tag payload region = .ok bytes) :
    bytes.length = regionLen ∧ ∃ rest, bytes = Frame.encode C.checksum tag payload ++ rest := by
  unfold writeRegion at h
  dsimp only at h
  by_cases hlong : (Frame.encode C.checksum tag payload).length > regionLen
  · rw [if_pos hlong] at h
    cases h
  · rw [if_neg hlong] at h
    obtain rfl := Except.ok.inj h
    refine ⟨?_, _, rfl⟩
    rw [List.length_append, List.length_replicate]
    omega

/-- A region is as long as it should be, and gives its value back. -/
theorem region_ok (htag : tag < 2 ^ 64)
    (h : (codec.toBytes value >>= fun payload => C.writeRegion regionLen tag payload region) = .ok bytes) :
    bytes.length = regionLen ∧ C.unframed tag codec region bytes = .ok value := by
  obtain ⟨payload, hpayload, hregion⟩ := bind_eq_ok.mp h
  obtain ⟨hlength, rest, rfl⟩ := writeRegion_ok hregion
  refine ⟨hlength, ?_⟩
  apply unframed_framed htag
  rw [framed, hpayload]
  rfl

variable {blob : Blob τ ν}

theorem size_ok {n : Nat} (h : C.size blob = .ok n) : ∃ bytes, C.encode blob = .ok bytes ∧ bytes.length = n := by
  obtain ⟨bytes, hbytes, h⟩ := bind_eq_ok.mp h
  exact ⟨bytes, hbytes, Except.ok.inj h⟩

theorem length_encode (h : C.encode blob = .ok bytes) : 0 < bytes.length := by
  cases blob with
  | header header => rw [(region_ok (Frame.tags_lt _ (by simp)) h).1, headerSize]; omega
  | metaPage page => rw [(region_ok (Frame.tags_lt _ (by simp)) h).1, metaPageSize]; omega
  | manifest manifest => exact length_framed h
  | schema schema => exact length_framed h
  | segment data =>
      obtain ⟨⟨built, metaFrame⟩, hbuild, h⟩ := bind_eq_ok.mp h
      obtain rfl := Except.ok.inj h
      exact C.segments.nonempty hbuild
  | deletes rows => exact length_framed h

/-- Whatever is written is read back from its own bytes. -/
theorem decode_encode (h : C.encode blob = .ok bytes) : C.decode bytes (blob.kind C.metaExtent) = .ok blob := by
  have hframed : ∀ {α : Type} {tag : Nat} {codec : Payload α} {value : α} (region : String), tag < 2 ^ 64 →
      C.framed tag codec value = .ok bytes → C.unframed tag codec region bytes = .ok value := by
    intro α tag codec value region htag hok
    rw [← List.append_nil bytes]
    exact unframed_framed htag hok region []
  cases blob with
  | header header => simp [decode, Blob.kind, (region_ok (Frame.tags_lt _ (by simp)) h).2]
  | metaPage page => simp [decode, Blob.kind, (region_ok (Frame.tags_lt _ (by simp)) h).2]
  | manifest manifest => simp [decode, Blob.kind, hframed "manifest" (Frame.tags_lt _ (by simp)) h]
  | schema schema => simp [decode, Blob.kind, hframed "schema" (Frame.tags_lt _ (by simp)) h]
  | segment data =>
      obtain ⟨⟨built, metaFrame⟩, hbuild, h⟩ := bind_eq_ok.mp h
      obtain rfl := Except.ok.inj h
      simp [decode, Blob.kind, metaExtent, hbuild, SegmentFormat.read_eq_ok.mpr hbuild]
  | deletes rows => simp [decode, Blob.kind, hframed "delete vector" (Frame.tags_lt _ (by simp)) h]

end Encode

end Codecs

/-- The bytes of a file, up to its length. -/
structure ByteFile where
  len : Nat
  byteAt : Nat → UInt8

namespace ByteFile

variable (file : ByteFile)

/-- What lies behind the end reads as zero once the file reaches there. -/
def filled : Nat → UInt8 := fun at_ => if at_ < file.len then file.byteAt at_ else 0

def setLen (n : Nat) : ByteFile := ⟨n, file.filled⟩

/-- The file after these bytes have reached it. No bytes leave it as it is. -/
def put (offset : Nat) (bytes : Bytes) : ByteFile :=
  if bytes = [] then file else ⟨max file.len (offset + bytes.length), Memory.store file.filled offset bytes⟩

/-- The bytes of an extent. -/
def readAt (extent : Extent) : Except Error Bytes :=
  if extent.stop ≤ file.len then .ok (Memory.load file.byteAt extent.offset extent.len)
  else .error (.io "failed to fill whole buffer")

variable {file} {extent : Extent} {offset : Nat} {bytes : Bytes}

theorem load_filled (hin : extent.stop ≤ file.len) :
    Memory.load file.filled extent.offset extent.len = Memory.load file.byteAt extent.offset extent.len := by
  apply List.map_congr_left
  intro cell hcell
  have hcell := List.mem_range.mp hcell
  unfold Extent.stop at hin
  rw [filled, if_pos (by omega)]

theorem readAt_setLen {n : Nat} (hin : extent.stop ≤ file.len) (hn : extent.stop ≤ n) :
    (file.setLen n).readAt extent = file.readAt extent := by
  rw [readAt, readAt, if_pos hin, if_pos (by exact hn), setLen, load_filled hin]

theorem len_put : (file.put offset bytes).len =
    if bytes = [] then file.len else max file.len (offset + bytes.length) := by
  unfold put
  split <;> rfl

theorem readAt_put_other (hin : extent.stop ≤ file.len)
    (hapart : offset + bytes.length ≤ extent.offset ∨ extent.stop ≤ offset) :
    (file.put offset bytes).readAt extent = file.readAt extent := by
  by_cases hnone : bytes = []
  · rw [put, if_pos hnone]
  · rw [put, if_neg hnone, readAt, readAt, if_pos hin, if_pos (by exact hin.trans (le_max_left _ _)),
      Memory.load_store_apart hapart, load_filled hin]

/-- Bytes that were put into an extent are the first ones read from it. -/
theorem readAt_put_self (file : ByteFile) {extent : Extent} {bytes : Bytes} (hsome : bytes ≠ []) (hroom : bytes.length ≤ extent.len)
    (hin : extent.stop ≤ max file.len (extent.offset + bytes.length)) :
    ∃ rest, (file.put extent.offset bytes).readAt extent = .ok (bytes ++ rest) ∧
      (bytes.length = extent.len → rest = []) := by
  obtain ⟨more, hmore⟩ := Nat.exists_eq_add_of_le hroom
  refine ⟨Memory.load (Memory.store file.filled extent.offset bytes) (extent.offset + bytes.length) more, ?_, ?_⟩
  · rw [put, if_neg hsome, readAt, if_pos (by exact hin), hmore, Memory.load_add, Memory.load_store_self]
  · intro hall
    obtain rfl : more = 0 := by omega
    rfl

end ByteFile

/-- A file of bytes as the engine uses it. -/
noncomputable def ByteMedia (C : Codecs τ ν) : Media τ ν where
  File := ByteFile
  create := ⟨0, fun _ => 0⟩
  len := ByteFile.len
  setLen := ByteFile.setLen
  size := C.size
  metaExtent := C.metaExtent
  writePrefix file offset blob count :=
    match C.encode blob with
    | .ok bytes => file.put offset (bytes.take count)
    | .error _ => file
  read file extent kind := do
    let bytes ← file.readAt extent
    C.decode bytes kind
  len_create := rfl
  len_setLen _ _ := rfl
  len_writePrefix file offset blob n count hsize hcount := by
    obtain ⟨bytes, hbytes, rfl⟩ := Codecs.size_ok hsize
    have hpos := Codecs.length_encode hbytes
    simp only [hbytes, ByteFile.len_put, List.take_eq_nil_iff, List.length_take, Nat.min_eq_left hcount]
    by_cases hnone : count = 0
    · rw [if_pos (.inl hnone), if_pos hnone]
    · rw [if_neg (by rintro (h | rfl) <;> simp_all), if_neg hnone]
  size_pos blob n hsize := by
    obtain ⟨bytes, hbytes, rfl⟩ := Codecs.size_ok hsize
    exact Codecs.length_encode hbytes
  size_header header n hsize := by
    obtain ⟨bytes, hbytes, rfl⟩ := Codecs.size_ok hsize
    exact (Codecs.region_ok (Frame.tags_lt _ (by simp)) hbytes).1
  size_metaPage page n hsize := by
    obtain ⟨bytes, hbytes, rfl⟩ := Codecs.size_ok hsize
    exact (Codecs.region_ok (Frame.tags_lt _ (by simp)) hbytes).1
  read_setLen file n extent kind hin hn := by
    rw [ByteFile.readAt_setLen hin hn]
  read_write_other file offset blob n count extent kind hsize hcount hin hapart := by
    obtain ⟨bytes, hbytes, rfl⟩ := Codecs.size_ok hsize
    simp only [hbytes]
    rw [ByteFile.readAt_put_other hin]
    rw [List.length_take, Nat.min_eq_left hcount]
    exact hapart
  read_write_self file extent blob hsize := by
    obtain ⟨bytes, hbytes, hlength⟩ := Codecs.size_ok hsize
    have hsome : bytes ≠ [] := List.ne_nil_of_length_pos (Codecs.length_encode hbytes)
    obtain ⟨rest, hread, hnone⟩ := file.readAt_put_self hsome (hlength.le : bytes.length ≤ extent.len) (by
      rw [hlength]
      exact le_max_right _ _)
    simp only [hbytes]
    rw [← hlength, List.take_length, hread, hnone hlength, List.append_nil]
    exact Codecs.decode_encode hbytes
  read_write_manifest file extent manifest n hsize hn hin := by
    obtain ⟨bytes, hbytes, rfl⟩ := Codecs.size_ok hsize
    have hsome : bytes ≠ [] := List.ne_nil_of_length_pos (Codecs.length_encode hbytes)
    obtain ⟨rest, hread, -⟩ := file.readAt_put_self hsome hn hin
    simp only [hbytes]
    rw [List.take_length, hread]
    have hback := Codecs.unframed_framed (Frame.tags_lt _ (by simp)) hbytes "manifest" rest
    simp [bind, Except.bind, Codecs.decode, hback]

section Words

/-! A payload that is written word by word. -/

theorem leBytes_flatMap_inj {words words' : List Nat} (hwords : ∀ word ∈ words, word < 2 ^ 64)
    (hwords' : ∀ word ∈ words', word < 2 ^ 64) (h : words.flatMap leBytes = words'.flatMap leBytes) : words = words' := by
  induction words generalizing words' with
  | nil =>
      cases words' with
      | nil => rfl
      | cons word' words' => simp [leBytes, List.range_succ] at h
  | cons word words ih =>
      cases words' with
      | nil => simp [leBytes, List.range_succ] at h
      | cons word' words' =>
          rw [List.flatMap_cons, List.flatMap_cons] at h
          obtain ⟨hword, hmore⟩ := List.append_inj h (by rw [length_leBytes, length_leBytes])
          have hsame : word = word' := by
            rw [← ofLe_leBytes (hwords word List.mem_cons_self), hword, ofLe_leBytes (hwords' word' List.mem_cons_self)]
          rw [hsame, ih (fun other hother => hwords other (List.mem_cons_of_mem _ hother))
            (fun other hother => hwords' other (List.mem_cons_of_mem _ hother)) hmore]

variable {α : Type}

/-- The words of a value, one after the other. No word is longer than a machine word. -/
def wordBytes (words : α → List Nat) (value : α) : Except Error Bytes :=
  if (words value).all (· < 2 ^ 64) ∧ (words value).length < 2 ^ 32 then .ok ((words value).flatMap leBytes) else .error .overflow

theorem wordBytes_inj {words : α → List Nat} (hwords : Function.Injective words) {value other : α} {payload : Bytes}
    (h : wordBytes words value = .ok payload) (h' : wordBytes words other = .ok payload) : value = other := by
  unfold wordBytes at h h'
  split at h
  · next hsmall =>
      split at h'
      · next hsmall' =>
          apply hwords
          apply leBytes_flatMap_inj
          · simpa using hsmall.1
          · simpa using hsmall'.1
          · rw [Except.ok.inj h, Except.ok.inj h']
      · cases h'
  · cases h

open Classical in
/-- What some bytes are the words of. -/
noncomputable def ofWordBytes (words : α → List Nat) (payload : Bytes) : Except Error α :=
  if h : ∃ value, wordBytes words value = .ok payload then .ok h.choose else .error (.corrupt "no such words")

theorem ofWordBytes_wordBytes {words : α → List Nat} (hwords : Function.Injective words) {value : α} {payload : Bytes}
    (h : wordBytes words value = .ok payload) : ofWordBytes words payload = .ok value := by
  have hsome : ∃ other, wordBytes words other = .ok payload := ⟨value, h⟩
  rw [ofWordBytes, dif_pos hsome, wordBytes_inj hwords hsome.choose_spec h]

theorem length_wordBytes {words : α → List Nat} {value : α} {payload : Bytes} (h : wordBytes words value = .ok payload) :
    Frame.headerLen + payload.length < 2 ^ 64 := by
  unfold wordBytes at h
  split at h
  · next hsmall =>
      rw [← Except.ok.inj h, List.length_flatMap]
      simp only [length_leBytes, List.map_const', List.sum_replicate_nat, Frame.headerLen]
      omega
  · cases h

/-- A payload of words. -/
noncomputable def Payload.ofWords (words : α → List Nat) (hwords : Function.Injective words) : Payload α where
  toBytes := wordBytes words
  fromBytes := ofWordBytes words
  roundTrip _ _ := ofWordBytes_wordBytes hwords
  fits _ _ := length_wordBytes

def Extent.words (extent : Extent) : List Nat := [extent.offset, extent.len]

def FileHeader.words (header : FileHeader) : List Nat :=
  header.magic :: header.formatVersion :: header.schemaFingerprint :: header.segmentAlign :: header.bufferAlign ::
    header.flags :: (header.schema.words ++ header.tableUuid.map UInt8.toNat)

theorem FileHeader.words_inj : Function.Injective FileHeader.words := by
  rintro ⟨_, _, ⟨⟩, uuid, ⟨_, _⟩, _, _, _, _⟩ ⟨_, _, ⟨⟩, uuid', ⟨_, _⟩, _, _, _, _⟩ h
  simp only [words, Extent.words, List.cons_append, List.nil_append, List.cons.injEq] at h
  obtain ⟨rfl, rfl, rfl, rfl, rfl, rfl, rfl, rfl, huuid⟩ := h
  rw [(List.map_injective_iff.mpr fun _ _ => UInt8.toNat_inj.mp) huuid]

def MetaPage.words (page : MetaPage) : List Nat :=
  page.txnId :: page.checkpointLsn :: page.nextLsn :: page.fileLen :: page.manifest.words

theorem MetaPage.words_inj : Function.Injective MetaPage.words := by
  rintro ⟨_, ⟨_, _⟩, _, _, _⟩ ⟨_, ⟨_, _⟩, _, _, _⟩ h
  simp only [words, Extent.words, List.cons.injEq] at h
  simp_all

def SegmentEntry.words (entry : SegmentEntry) : List Nat :=
  entry.segmentId :: entry.rowCount :: entry.deletedCount :: (entry.data.words ++ entry.metaFrame.words ++
    match entry.deletes with
    | none => [0, 0, 0]
    | some extent => 1 :: extent.words)

def FreeExtent.words (free : FreeExtent) : List Nat := free.freedTxn :: free.extent.words

def Manifest.words (manifest : Manifest) : List Nat :=
  manifest.txnId :: manifest.checkpointLsn :: manifest.nextSegmentId :: manifest.nextSeqno :: manifest.fileLen ::
    manifest.segments.length :: manifest.freeExtents.length :: (manifest.schema.words ++
      (manifest.segments.flatMap SegmentEntry.words ++ manifest.freeExtents.flatMap FreeExtent.words))

theorem SegmentEntry.words_inj : Function.Injective SegmentEntry.words := by
  rintro ⟨_, ⟨_, _⟩, ⟨_, _⟩, _, _, deletes⟩ ⟨_, ⟨_, _⟩, ⟨_, _⟩, _, _, deletes'⟩ h
  simp only [words, Extent.words, List.cons_append, List.nil_append, List.cons.injEq] at h
  obtain ⟨rfl, rfl, rfl, rfl, rfl, rfl, rfl, h⟩ := h
  cases deletes with
  | none => cases deletes' with
    | none => rfl
    | some extent => simp at h
  | some extent => cases deletes' with
    | none => simp at h
    | some extent' =>
        obtain ⟨_, _⟩ := extent
        obtain ⟨_, _⟩ := extent'
        simp_all

theorem FreeExtent.words_inj : Function.Injective FreeExtent.words := by
  rintro ⟨⟨_, _⟩, _⟩ ⟨⟨_, _⟩, _⟩ h
  simp only [words, Extent.words, List.cons.injEq] at h
  simp_all

theorem SegmentEntry.length_words (entry : SegmentEntry) : entry.words.length = 10 := by
  unfold words
  cases entry.deletes <;> rfl

/-- Items of as many words each, with what stands behind them. -/
theorem flatMap_words_inj {words : α → List Nat} (hwords : Function.Injective words) {size : Nat}
    (hsize : ∀ item, (words item).length = size) {items others : List α} {rest rest' : List Nat}
    (hlength : items.length = others.length) (h : items.flatMap words ++ rest = others.flatMap words ++ rest') :
    items = others ∧ rest = rest' := by
  induction items generalizing others with
  | nil =>
      obtain rfl := List.length_eq_zero_iff.mp hlength.symm
      exact ⟨rfl, h⟩
  | cons item items ih =>
      cases others with
      | nil => cases hlength
      | cons other others =>
          rw [List.flatMap_cons, List.flatMap_cons, List.append_assoc, List.append_assoc] at h
          obtain ⟨hitem, hmore⟩ := List.append_inj h ((hsize item).trans (hsize other).symm)
          obtain ⟨rfl, rfl⟩ := ih (Nat.succ.inj hlength) hmore
          exact ⟨by rw [hwords hitem], rfl⟩

theorem Manifest.words_inj : Function.Injective Manifest.words := by
  rintro ⟨_, _, _, _, ⟨_, _⟩, segments, free, _⟩ ⟨_, _, _, _, ⟨_, _⟩, segments', free', _⟩ h
  simp only [words, Extent.words, List.cons_append, List.nil_append, List.cons.injEq] at h
  obtain ⟨rfl, rfl, rfl, rfl, rfl, hsegments, hfree, rfl, rfl, h⟩ := h
  obtain ⟨rfl, hmore⟩ := flatMap_words_inj SegmentEntry.words_inj SegmentEntry.length_words hsegments h
  rw [← List.append_nil (List.flatMap FreeExtent.words free), ← List.append_nil (List.flatMap FreeExtent.words free')] at hmore
  have hsize : ∀ free : FreeExtent, free.words.length = 3 := fun _ => rfl
  obtain ⟨rfl, -⟩ := flatMap_words_inj FreeExtent.words_inj hsize hfree hmore
  rfl

end Words

end LocalTables
