import LocalTables.Columnar.Laws

/-! What a segment stores is what it was given: a buffer lies where its spec says, and an array rebuilt from a chunk stands for
the values of the array the chunk was written from. -/

namespace LocalTables

namespace Segment

open Outcome

/-- A stored buffer lies where its spec says. -/
structure Placed (K : Kit) (whole : Bytes) (buffer : BufferRole × StoredBuffer) (spec : BufferSpec) : Prop where
  role : spec.role = buffer.1
  inside : spec.extent.offset + spec.extent.len ≤ whole.length
  content : (whole.drop spec.extent.offset).take spec.extent.len = buffer.2.bytes
  uncompressedLen : spec.uncompressedLen = buffer.2.uncompressedLen
  checksum : spec.checksum = K.checksum buffer.2.bytes

/-- Extents that lie between two places. -/
def Between (start stop : Nat) (extents : List Extent) : Prop :=
  ∀ extent ∈ extents, start ≤ extent.offset ∧ extent.offset + extent.len ≤ stop

section Place

variable {K : Kit} {start start' stop stop' : Nat} {extents extents' : List Extent}

theorem Between.mono (h : Between start stop extents) (hstart : start' ≤ start) (hstop : stop ≤ stop') :
    Between start' stop' extents := by
  intro extent hextent
  have := h extent hextent
  omega

theorem Between.append (h : Between start stop extents) (h' : Between start stop extents') :
    Between start stop (extents ++ extents') := by
  intro extent hextent
  rcases List.mem_append.mp hextent with hextent | hextent
  · exact h extent hextent
  · exact h' extent hextent

theorem Placed.mono {whole whole' : Bytes} {buffer : BufferRole × StoredBuffer} {spec : BufferSpec}
    (h : Placed K whole buffer spec) (hstarts : whole <+: whole') : Placed K whole' buffer spec where
  role := h.role
  inside := h.inside.trans hstarts.length_le
  content := by
    obtain ⟨rest, rfl⟩ := hstarts
    have hfits : spec.extent.len ≤ (whole.drop spec.extent.offset).length := by
      have := h.inside
      rw [List.length_drop]
      omega
    rw [List.drop_append_of_le_length (by have := h.inside; omega), List.take_append_of_le_length hfits, h.content]
  uncompressedLen := h.uncompressedLen
  checksum := h.checksum

theorem placed_roles {whole : Bytes} {buffers : List (BufferRole × StoredBuffer)} {specs : List BufferSpec}
    (h : List.Forall₂ (Placed K whole) buffers specs) : specs.map BufferSpec.role = buffers.map Prod.fst := by
  induction h with
  | nil => rfl
  | cons hplaced _ ih => rw [List.map_cons, List.map_cons, hplaced.role, ih]

theorem padToAlignment_starts (bytes : Bytes) : bytes <+: padToAlignment bytes := List.prefix_append _ _

theorem foldl_place {buffers : List (BufferRole × StoredBuffer)} {bytes bytes' : Bytes} {specs specs' : List BufferSpec}
    (h : buffers.foldl (place K) (bytes, specs) = (bytes', specs')) :
    ∃ new, specs' = specs ++ new ∧ bytes <+: bytes' ∧ List.Forall₂ (Placed K bytes') buffers new ∧
      Between bytes.length bytes'.length (new.map BufferSpec.extent) := by
  induction buffers generalizing bytes specs with
  | nil =>
      obtain ⟨rfl, rfl⟩ := Prod.mk.inj h
      exact ⟨[], (List.append_nil _).symm, List.prefix_refl _, .nil, fun _ h => nomatch h⟩
  | cons buffer buffers ih =>
      rw [List.foldl_cons] at h
      obtain ⟨new, rfl, hstarts, hplaced, hbetween⟩ := ih h
      have hpad := padToAlignment_starts bytes
      have hgrows : bytes <+: padToAlignment bytes ++ buffer.2.bytes := hpad.trans (List.prefix_append _ _)
      refine ⟨⟨buffer.1, ⟨(padToAlignment bytes).length, buffer.2.bytes.length⟩, buffer.2.uncompressedLen,
        K.checksum buffer.2.bytes⟩ :: new, by simp, hgrows.trans hstarts, ?_, ?_⟩
      · refine .cons (Placed.mono ⟨rfl, ?_, ?_, rfl, rfl⟩ hstarts) hplaced
        · dsimp only
          rw [List.length_append]
        · simp
      · rw [List.map_cons]
        intro extent hextent
        rcases List.mem_cons.mp hextent with rfl | hextent
        · have := hstarts.length_le
          rw [List.length_append] at this
          exact ⟨hpad.length_le, this⟩
        · exact hbetween.mono hgrows.length_le le_rfl extent hextent

/-- What writing a chunk does, step by step. -/
theorem writeChunk_ok {codec : Codec} {side : List (BufferRole × StoredBuffer)} {encoded : EncodedColumn} {bytes bytes' : Bytes}
    {chunk : ColumnChunk} (h : writeChunk K codec side encoded bytes = .ok (bytes', chunk)) :
    ∃ stored middle specs chunks, compressBuffers K codec encoded.buffers = .ok stored ∧
      (stored ++ side).foldl (place K) (bytes, []) = (middle, specs) ∧
      writeChildren K codec encoded.children middle = .ok (bytes', chunks) ∧
      chunk = ⟨encoded.encoding, if stored.any fun buffer => buffer.2.codec ≠ .none then codec else .none, encoded.len,
        encoded.nullCount, encoded.dictLen, encoded.runCount, encoded.offset, specs, chunks, encoded.zone, 0, []⟩ := by
  cases encoded
  rw [writeChunk] at h
  obtain ⟨stored, hstored, h⟩ := bind_eq_ok.mp h
  dsimp only at h
  obtain ⟨⟨bytes'', chunks⟩, hchunks, h⟩ := bind_eq_ok.mp h
  obtain ⟨rfl, rfl⟩ := Prod.mk.inj (Except.ok.inj h)
  exact ⟨stored, _, _, chunks, hstored, rfl, hchunks, rfl⟩

mutual

/-- A chunk is written behind what is there, and its buffers lie in what is new. -/
theorem writeChunk_between {codec : Codec} : ∀ {encoded : EncodedColumn} {side : List (BufferRole × StoredBuffer)}
    {bytes bytes' : Bytes} {chunk : ColumnChunk}, writeChunk K codec side encoded bytes = .ok (bytes', chunk) →
    bytes <+: bytes' ∧ Between bytes.length bytes'.length chunk.extents
  | ⟨_, _, _, _, _, _, _, _, children⟩, side, bytes, bytes', chunk, h => by
      obtain ⟨stored, middle, specs, chunks, -, hplaced, hchildren, rfl⟩ := writeChunk_ok h
      obtain ⟨new, rfl, hstarts, -, hbetween⟩ := foldl_place hplaced
      obtain ⟨hstarts', hbetween'⟩ := writeChildren_between hchildren
      refine ⟨hstarts.trans hstarts', ?_⟩
      rw [ColumnChunk.extents]
      exact (hbetween.mono le_rfl hstarts'.length_le).append (hbetween'.mono hstarts.length_le le_rfl)

theorem writeChildren_between {codec : Codec} : ∀ {children : List EncodedColumn} {bytes bytes' : Bytes}
    {chunks : List ColumnChunk}, writeChildren K codec children bytes = .ok (bytes', chunks) →
    bytes <+: bytes' ∧ Between bytes.length bytes'.length (ColumnChunk.childExtents chunks)
  | [], bytes, bytes', chunks, h => by
      rw [writeChildren] at h
      obtain ⟨rfl, rfl⟩ := Prod.mk.inj (Except.ok.inj h)
      rw [ColumnChunk.childExtents]
      exact ⟨List.prefix_refl _, fun _ h => nomatch h⟩
  | child :: children, bytes, bytes', chunks, h => by
      rw [writeChildren] at h
      obtain ⟨⟨middle, chunk⟩, hchunk, h⟩ := bind_eq_ok.mp h
      obtain ⟨⟨bytes'', rest⟩, hrest, h⟩ := bind_eq_ok.mp h
      obtain ⟨rfl, rfl⟩ := Prod.mk.inj (Except.ok.inj h)
      obtain ⟨hstarts, hbetween⟩ := writeChunk_between hchunk
      obtain ⟨hstarts', hbetween'⟩ := writeChildren_between hrest
      refine ⟨hstarts.trans hstarts', ?_⟩
      rw [ColumnChunk.childExtents]
      exact (hbetween.mono le_rfl hstarts'.length_le).append (hbetween'.mono hstarts.length_le le_rfl)

end

end Place

section Load

/-- What is related to two lists, one after the other, splits as they do. -/
theorem forall₂_append_left {α β : Type} {R : α → β → Prop} {as as' : List α} {bs : List β}
    (h : List.Forall₂ R (as ++ as') bs) : ∃ front back, bs = front ++ back ∧ List.Forall₂ R as front ∧ List.Forall₂ R as' back := by
  have hfront := List.forall₂_take as.length h
  have hback := List.forall₂_drop as.length h
  rw [List.take_left] at hfront
  rw [List.drop_left] at hback
  exact ⟨_, _, (List.take_append_drop _ _).symm, hfront, hback⟩

variable {ν : Type} {K : Kit} {M : Meaning ν} {whole : Bytes}

theorem segmentBytes_placed {buffer : BufferRole × StoredBuffer} {spec : BufferSpec} (h : Placed K whole buffer spec)
    (hwhole : whole.length < usizeLimit) : segmentBytes whole spec.extent = .ok buffer.2.bytes := by
  have hinside := h.inside
  unfold segmentBytes
  rw [add_eq (hinside.trans_lt hwhole)]
  simp only [bind, Except.bind, if_neg (Nat.not_lt.mpr hinside), slice_eq (Nat.le_add_right _ _) hinside,
    Nat.add_sub_cancel_left, h.content]

/-- A buffer that is stored loads as it was, packed or not. -/
theorem load_placed (L : K.Lawful M) {codec chunkCodec : Codec} {role : BufferRole} {buffer : Bytes} {stored : StoredBuffer}
    {spec : BufferSpec} (hstored : compressBuffer K codec buffer = .ok stored) (h : Placed K whole (role, stored) spec)
    (hwhole : whole.length < usizeLimit) (hcodec : stored.codec ≠ .none → chunkCodec = codec)
    (hlength : buffer.length ≤ allocLimit) : load K (segmentBytes whole) spec chunkCodec = .ok buffer := by
  unfold load
  rw [segmentBytes_placed h hwhole]
  simp only [bind, Except.bind, h.checksum, ne_eq, not_true_eq_false, if_false]
  unfold compressBuffer at hstored
  obtain ⟨compressed, hcompressed, hstored⟩ := bind_eq_ok.mp hstored
  unfold Kit.compress at hcompressed
  have hlen := h.uncompressedLen
  cases compressed with
  | none =>
      obtain rfl := Except.ok.inj hstored
      rw [if_pos (.inr hlen.symm)]
      rfl
  | some packed =>
      obtain rfl := Except.ok.inj hstored
      split at hcompressed
      · cases hcompressed
      · next hpacks =>
          obtain rfl := hcodec hpacks
          obtain ⟨packed', hpack, hcompressed⟩ := bind_eq_ok.mp hcompressed
          split at hcompressed
          · cases hcompressed
          · next hless =>
              obtain rfl := Option.some.inj (Except.ok.inj hcompressed)
              dsimp only at hlen ⊢
              rw [hlen, if_neg (not_or.mpr ⟨hpacks, by omega⟩), Kit.decompress, if_neg hpacks, if_neg (by omega),
                L.unpack hpack]
              simp

/-- The buffer a spec is found to hold. -/
def Loads (K : Kit) (whole : Bytes) (codec : Codec) (buffer : BufferRole × Bytes) (spec : BufferSpec) : Prop :=
  spec.role = buffer.1 ∧ load K (segmentBytes whole) spec codec = .ok buffer.2

/-- All buffers of a column load as they were, and what lies beside them is none of them. -/
theorem loads_placed (L : K.Lawful M) {codec : Codec} {buffers : List (BufferRole × Bytes)}
    {stored side : List (BufferRole × StoredBuffer)} {specs : List BufferSpec}
    (hstored : compressBuffers K codec buffers = .ok stored) (h : List.Forall₂ (Placed K whole) (stored ++ side) specs)
    (hwhole : whole.length < usizeLimit) (hlength : ∀ buffer ∈ buffers, buffer.2.length ≤ allocLimit) :
    ∃ own beside, specs = own ++ beside ∧
      List.Forall₂ (Loads K whole (if stored.any fun buffer => buffer.2.codec ≠ .none then codec else .none)) buffers own ∧
      List.Forall₂ (Placed K whole) side beside := by
  obtain ⟨own, beside, rfl, hown, hbeside⟩ := forall₂_append_left h
  refine ⟨own, beside, rfl, ?_, hbeside⟩
  have hcodec : ∀ buffer ∈ stored, buffer.2.codec ≠ .none →
      (if stored.any fun buffer => buffer.2.codec ≠ .none then codec else .none) = codec := by
    intro buffer hbuffer hpacked
    exact if_pos (List.any_eq_true.mpr ⟨buffer, hbuffer, decide_eq_true hpacked⟩)
  generalize (if stored.any fun buffer => buffer.2.codec ≠ .none then codec else .none) = chunkCodec at hcodec ⊢
  have hforall := mapM_ok hstored
  clear hstored h hbeside
  induction hforall generalizing own with
  | nil =>
      cases hown
      exact .nil
  | cons hone _ ih =>
      cases hown with
      | cons hplaced hown =>
          obtain ⟨packed, hpacked, hsame⟩ := bind_eq_ok.mp hone
          obtain rfl := Except.ok.inj hsame
          refine .cons ⟨hplaced.role, ?_⟩ (ih (fun b hb => hlength b (List.mem_cons_of_mem _ hb)) _
            hown fun b hb => hcodec b (List.mem_cons_of_mem _ hb))
          exact load_placed L hpacked hplaced hwhole (hcodec _ List.mem_cons_self) (hlength _ List.mem_cons_self)

end Load

section Rebuild

variable {ν : Type} {K : Kit} {M : Meaning ν} {whole : Bytes}

/-- Buffers that are not an array's own. -/
def Beside (roles : List BufferRole) : Prop := ∀ role ∈ roles, role ≠ .validity ∧ role ≠ .data

/-- The roles of the buffers a plain array is stored as. -/
theorem loads_roles {codec : Codec} {array : ArrayData} {own : List BufferSpec}
    (h : List.Forall₂ (Loads K whole codec) (validity array ++ array.buffers.map fun buffer => (.data, buffer)) own) :
    ∃ nulls data, own = nulls ++ data ∧ List.Forall₂ (Loads K whole codec) (validity array) nulls ∧
      List.Forall₂ (fun buffer spec => load K (segmentBytes whole) spec codec = .ok buffer) array.buffers data ∧
      (∀ spec ∈ data, spec.role = .data) := by
  obtain ⟨nulls, data, rfl, hnulls, hdata⟩ := forall₂_append_left h
  rw [List.forall₂_map_left_iff] at hdata
  refine ⟨nulls, data, rfl, hnulls, hdata.imp fun _ _ hloads => hloads.2, ?_⟩
  clear h hnulls
  generalize array.buffers = buffers at hdata
  induction hdata with
  | nil => exact fun _ h => nomatch h
  | cons hloads _ ih =>
      intro spec hspec
      rcases List.mem_cons.mp hspec with rfl | hspec
      · exact hloads.1
      · exact ih spec hspec

/-- The bitmap comes back where there is a null. -/
theorem decodeNulls_loads (L : K.Lawful M) {codec : Codec} {array : ArrayData} {own beside : List BufferSpec}
    (h : M.Valid array)
    (hown : List.Forall₂ (Loads K whole codec) (validity array ++ array.buffers.map fun buffer => (.data, buffer)) own)
    (hbeside : Beside (beside.map BufferSpec.role)) :
    ∃ nulls, decodeNulls K (segmentBytes whole) (own ++ beside) codec array.len = .ok nulls ∧ NullsKept array nulls := by
  obtain ⟨nulls, data, rfl, hnulls, -, hroles⟩ := loads_roles hown
  have hrest : (data ++ beside).find? (fun spec => spec.role == .validity) = none := by
    rw [List.find?_eq_none]
    intro spec hspec
    rcases List.mem_append.mp hspec with hspec | hspec
    · simp [hroles spec hspec]
    · simpa using (hbeside spec.role (List.mem_map_of_mem hspec)).1
  unfold decodeNulls NullsKept
  unfold validity at hnulls
  cases hbitmap : array.nulls with
  | none =>
      rw [hbitmap] at hnulls
      cases hnulls
      have hzero : array.nullCount = 0 := by
        rw [ArrayData.nullCount, hbitmap]
        rfl
      refine ⟨none, ?_, if_pos hzero ▸ rfl⟩
      rw [List.nil_append, hrest]
      rfl
  | some bitmap =>
      have hcount : array.nullCount = bitmap.nullCount := by
        rw [ArrayData.nullCount, hbitmap]
        rfl
      rw [hbitmap] at hnulls
      dsimp only at hnulls
      by_cases hzero : array.nullCount = 0
      · rw [if_neg (by omega)] at hnulls
        cases hnulls
        refine ⟨none, ?_, if_pos hzero ▸ rfl⟩
        rw [List.nil_append, hrest]
        rfl
      · rw [if_pos (by omega)] at hnulls
        obtain ⟨spec, _, hloads, hnil, rfl⟩ := List.forall₂_cons_left_iff.mp hnulls
        cases hnil
        obtain ⟨hlen, hbytes⟩ := L.nulls_length h hbitmap
        have hfind : (([spec] ++ data) ++ beside).find? (fun spec => spec.role == .validity) = some spec := by
          rw [List.append_assoc, List.singleton_append, List.find?_cons_of_pos (by simp [hloads.1])]
        refine ⟨some ⟨bitmap.bytes, array.len, bitmap.bytes.length⟩, ?_, ?_⟩
        · rw [hfind]
          dsimp only
          rw [hloads.2]
          simp only [bind, Except.bind, hbytes, Nat.lt_irrefl, if_false]
          rw [← hbytes, List.take_length]
          rfl
        · rw [if_neg hzero]
          exact ⟨bitmap, _, rfl, rfl, rfl, hlen.symm⟩

theorem dataBuffers_load {codec : Codec} {array : ArrayData} {own beside : List BufferSpec}
    (hown : List.Forall₂ (Loads K whole codec) (validity array ++ array.buffers.map fun buffer => (.data, buffer)) own)
    (hbeside : Beside (beside.map BufferSpec.role)) :
    ((own ++ beside).filter fun spec => spec.role == .data).mapM (fun spec => load K (segmentBytes whole) spec codec) =
      .ok array.buffers := by
  obtain ⟨nulls, data, rfl, hnulls, hdata, hroles⟩ := loads_roles hown
  have hnone : (nulls.filter fun spec => spec.role == .data) = [] := by
    rw [List.filter_eq_nil_iff]
    intro spec hspec
    obtain ⟨buffer, hbuffer, hloads⟩ : ∃ buffer ∈ validity array, Loads K whole codec buffer spec := by
      obtain ⟨index, hindex, hat⟩ := List.mem_iff_getElem.mp hspec
      exact ⟨_, List.getElem_mem (hnulls.length_eq ▸ hindex), hat ▸ hnulls.get (hnulls.length_eq ▸ hindex) hindex⟩
    have hvalidity : buffer.1 = .validity := by
      unfold validity at hbuffer
      split at hbuffer
      · split at hbuffer
        · rw [List.mem_singleton.mp hbuffer]
        · cases hbuffer
      · cases hbuffer
    simp [hloads.1, hvalidity]
  have hall : (data.filter fun spec => spec.role == .data) = data := by
    rw [List.filter_eq_self]
    intro spec hspec
    simp [hroles spec hspec]
  have hbesideNone : (beside.filter fun spec => spec.role == .data) = [] := by
    rw [List.filter_eq_nil_iff]
    intro spec hspec
    simpa using (hbeside spec.role (List.mem_map_of_mem hspec)).2
  rw [List.filter_append, List.filter_append, hnone, hall, hbesideNone, List.append_nil, List.nil_append]
  clear hown hnulls hnone hall hroles
  generalize array.buffers = buffers at hdata
  induction hdata with
  | nil => rfl
  | cons hload _ ih =>
      rw [List.mapM_cons, hload, ih]
      rfl

/-- The array two encodings store is the same. -/
structure SameStored (encoded other : EncodedColumn) : Prop where
  len : other.len = encoded.len
  offset : other.offset = encoded.offset
  buffers : other.buffers = encoded.buffers
  children : other.children = encoded.children

theorem encodePlainTo_ok {depth : Nat} {array : ArrayData} {zone : ZoneMap} {encoded : EncodedColumn}
    (h : encodePlainTo K (depth + 1) array zone = .ok encoded) :
    ∃ children, ((storedArray K array).children.mapM fun child => encodePlainTo K depth child unknownZone) = .ok children ∧
      encoded = ⟨.plain, (storedArray K array).len, (storedArray K array).nullCount, 0, 0, (storedArray K array).offset, zone,
        validity (storedArray K array) ++ (storedArray K array).buffers.map fun buffer => (.data, buffer), children⟩ := by
  rw [encodePlainTo] at h
  obtain ⟨children, hchildren, h⟩ := bind_eq_ok.mp h
  exact ⟨children, hchildren, (Except.ok.inj h).symm⟩

/-- Children that are written one after the other come back, if each of them does. -/
theorem rebuildChildren_written {codec : Codec} {encode : ArrayData → Except Error EncodedColumn}
    (hone : ∀ {child encoded bytes bytes' chunk}, M.Valid child → encode child = .ok encoded →
      writeChunk K codec [] encoded bytes = .ok (bytes', chunk) → bytes' <+: whole →
      ∃ built, rebuild K (segmentBytes whole) chunk child.dataType = .ok built ∧ M.Same child built)
    {children : List ArrayData} (hvalid : ∀ child ∈ children, M.Valid child) {encoded : List EncodedColumn}
    (hencoded : children.mapM encode = .ok encoded) {bytes bytes' : Bytes} {chunks : List ColumnChunk}
    (hwritten : writeChildren K codec encoded bytes = .ok (bytes', chunks)) (hstarts : bytes' <+: whole) :
    chunks.length = children.length ∧ ∃ built,
      rebuildChildren K (segmentBytes whole) chunks (children.map ArrayData.dataType) = .ok built ∧
      List.Forall₂ M.Same children built := by
  have hforall := mapM_ok hencoded
  clear hencoded
  induction hforall generalizing bytes chunks with
  | nil =>
      rw [writeChildren] at hwritten
      obtain ⟨rfl, rfl⟩ := Prod.mk.inj (Except.ok.inj hwritten)
      refine ⟨rfl, [], ?_, .nil⟩
      rw [List.map_nil, rebuildChildren]
      · rfl
      · simp
  | cons hencode _ ih =>
      rw [writeChildren] at hwritten
      obtain ⟨⟨middle, chunk⟩, hchunk, hwritten⟩ := bind_eq_ok.mp hwritten
      obtain ⟨⟨bytes'', rest⟩, hrest, hwritten⟩ := bind_eq_ok.mp hwritten
      obtain ⟨rfl, rfl⟩ := Prod.mk.inj (Except.ok.inj hwritten)
      have hmiddle := (writeChildren_between hrest).1
      obtain ⟨child, hchild, hsame⟩ := hone (hvalid _ List.mem_cons_self) hencode hchunk (hmiddle.trans hstarts)
      obtain ⟨hlength, built, hbuilt, hall⟩ := ih (fun c hc => hvalid c (List.mem_cons_of_mem _ hc)) hrest
      refine ⟨by rw [List.length_cons, List.length_cons, hlength], child :: built, ?_, .cons hsame hall⟩
      rw [List.map_cons, rebuildChildren, hchild, hbuilt]
      rfl

/-- What is rebuilt from a chunk is what the chunk was written from. The induction is on how deep the array goes. -/
theorem rebuild_written (L : K.Lawful M) (hwhole : whole.length < usizeLimit) {codec : Codec} (depth : Nat) :
    ∀ {array : ArrayData} {zone : ZoneMap} {encoded other : EncodedColumn} {side : List (BufferRole × StoredBuffer)}
      {bytes bytes' : Bytes} {chunk : ColumnChunk}, M.Valid array → encodePlainTo K depth array zone = .ok encoded →
      SameStored encoded other → Beside (side.map Prod.fst) → writeChunk K codec side other bytes = .ok (bytes', chunk) →
      bytes' <+: whole →
      ∃ built, rebuild K (segmentBytes whole) chunk array.dataType = .ok built ∧ M.Same array built := by
  induction depth with
  | zero =>
      intro array zone encoded other side bytes bytes' chunk _ hencoded
      cases hencoded
  | succ depth ih =>
      intro array zone encoded other side bytes bytes' chunk hvalid hencoded hother hside hwritten hstarts
      obtain ⟨children, hchildren, rfl⟩ := encodePlainTo_ok hencoded
      have hstored := L.storedArray_same hvalid
      generalize storedArray K array = kept at *
      obtain ⟨hlen, hoffset, hbuffers, hbelow⟩ := hother
      dsimp only at hlen hoffset hbuffers hbelow
      obtain ⟨stored, middle, specs, chunks, hpacked, hplaced, hrest, rfl⟩ := writeChunk_ok hwritten
      rw [hbuffers] at hpacked
      rw [hbelow] at hrest
      obtain ⟨new, rfl, -, hlies, -⟩ := foldl_place hplaced
      have hmiddle := (writeChildren_between hrest).1.trans hstarts
      obtain ⟨own, beside, hsplit, hown, hbeside⟩ := loads_placed L hpacked (hlies.imp fun _ _ h => h.mono hmiddle) hwhole
        fun buffer hbuffer => L.stored_length hstored.valid hbuffer
      have hroles : Beside (beside.map BufferSpec.role) := by
        rw [placed_roles hbeside]
        exact hside
      obtain ⟨nulls, hnulls, hkept⟩ := decodeNulls_loads L hstored.valid hown hroles
      obtain ⟨htypes, hvalidBelow⟩ := L.children hstored.valid
      obtain ⟨hcount, built, hbuilt, hall⟩ := rebuildChildren_written
        (fun hchild hencode hchunk hin => ih hchild hencode ⟨rfl, rfl, rfl, rfl⟩ (fun _ h => by cases h) hchunk hin)
        hvalidBelow hchildren hrest hstarts
      obtain ⟨final, hfinal, hsame⟩ := L.build hstored.valid hkept hall
      refine ⟨final, ?_, ⟨hsame.valid, hsame.dataType.trans hstored.dataType, hsame.values.trans hstored.values,
        hsame.nullCount.trans hstored.nullCount⟩⟩
      rw [htypes] at hbuilt
      have hcount' : chunks.length = kept.dataType.childDataTypes.length := by rw [← htypes, List.length_map, hcount]
      rw [rebuild, hsplit, hlen, hoffset, hnulls, ← hstored.dataType]
      simp only [bind, Except.bind, dataBuffers_load hown hroles, hcount', ne_eq, not_true_eq_false, if_false, hbuilt, hfinal]
      rfl

end Rebuild

end Segment

end LocalTables
