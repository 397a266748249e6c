import LocalTables.Columnar.Stored

/-! Decoding a range of a column gives those rows of it, however the column is stored: as it stands, as a dictionary or runs, or
cut into blocks that the range may start in, span or end in. -/

namespace LocalTables

namespace Segment

open Outcome

section Whole

variable {ν : Type} {K : Kit} {M : Meaning ν} {whole : Bytes} {array : ArrayData} {chunk : ColumnChunk}

/-- Any rows of an array can be read from a chunk. -/
structure Serves (K : Kit) (M : Meaning ν) (whole : Bytes) (array : ArrayData) (chunk : ColumnChunk) : Prop where
  len : chunk.len = array.len
  rows : ∀ start len, start + len ≤ array.len → ∃ part,
    decodeColumnRows K (segmentBytes whole) chunk array.dataType start len = .ok part ∧ M.Rows array start len part

/-- What is stored stands for the column under an encoding. -/
def Stands (K : Kit) (M : Meaning ν) (array built : ArrayData) (encoding : Encoding) : Prop :=
  match encoding with
  | .plain => M.Same array built
  | encoding => worthReEncoding array.dataType = true ∧ M.Valid built ∧
      built.dataType = storedType array.dataType encoding ∧ M.values built = M.values array ∧
      ∃ encoded, K.cast array (storedType array.dataType encoding) = .ok encoded

theorem Meaning.Same.rows {other part : ArrayData} {start len : Nat} (h : M.Same array other) (hrows : M.Rows other start len part) :
    M.Rows array start len part where
  valid := hrows.valid
  dataType := hrows.dataType.trans h.dataType
  values := h.values ▸ hrows.values
  nullCount := fun hzero => hrows.nullCount (h.nullCount.trans hzero)

theorem rowsAsked_rows (L : K.Lawful M) (h : M.Valid array) {start len : Nat} (hinside : start + len ≤ array.len) :
    ∃ part, rowsAsked K array array.len start len = .ok part ∧ M.Rows array start len part := by
  unfold rowsAsked
  split
  · next hwhole =>
      refine ⟨array, rfl, h, rfl, ?_, id⟩
      rw [hwhole.1, hwhole.2, List.drop_zero, ← L.length_values h, List.take_length]
  · rw [sliceRows, if_pos hinside]
    exact ⟨_, rfl, L.slice h hinside⟩

/-- Casting back what was re-encoded gives the rows of the column. -/
theorem cast_rows (L : K.Lawful M) (h : M.Valid array) {built part : ArrayData} {form : DataType} {start len : Nat}
    (hworth : worthReEncoding array.dataType = true) (hform : ReEncoded array.dataType form) (htype : built.dataType = form)
    (hvalues : M.values built = M.values array) {encoded : ArrayData} (hcast : K.cast array form = .ok encoded)
    (hpart : M.Rows built start len part) : ∃ back, K.cast part array.dataType = .ok back ∧ M.Rows array start len back := by
  obtain ⟨back, hback, hvalid, hbackType, hbackValues⟩ :=
    L.cast_back h hworth hform hcast hpart.valid (hpart.dataType.trans htype)
  have hsame : M.values back = ((M.values array).drop start).take len := by rw [hbackValues, hpart.values, hvalues]
  refine ⟨back, hback, hvalid, hbackType, hsame, fun hzero => ?_⟩
  rw [L.nullCount_eq_zero h hworth] at hzero
  rw [L.nullCount_eq_zero hvalid (hbackType ▸ hworth), hsame]
  exact fun hmem => hzero (List.drop_subset _ _ (List.take_subset _ _ hmem))

/-- A chunk in one piece serves the rows of its column. -/
theorem serves_of_rebuild (L : K.Lawful M) (h : M.Valid array) {built : ArrayData} (hblocks : chunk.blocks = [])
    (hlen : chunk.len = array.len)
    (hrebuild : rebuild K (segmentBytes whole) chunk (storedType array.dataType chunk.encoding) = .ok built)
    (hstands : Stands K M array built chunk.encoding) : Serves K M whole array chunk := by
  refine ⟨hlen, fun start len hinside => ?_⟩
  obtain ⟨encoding, codec, stored, nullCount, dictLen, runCount, offset, buffers, children, zone, blockRows, blocks⟩ := chunk
  dsimp only at hblocks hlen hrebuild hstands
  subst hblocks hlen
  have hbuilt : M.Valid built ∧ M.values built = M.values array := by
    cases encoding with
    | plain => exact ⟨hstands.valid, hstands.values⟩
    | dictionary => exact ⟨hstands.2.1, hstands.2.2.2.1⟩
    | runLength => exact ⟨hstands.2.1, hstands.2.2.2.1⟩
  have hbuiltLen : built.len = array.len := by rw [← L.length_values hbuilt.1, hbuilt.2, L.length_values h]
  obtain ⟨part, hpart, hrows⟩ := rowsAsked_rows L hbuilt.1 (hbuiltLen ▸ hinside)
  rw [hbuiltLen] at hpart
  have hexpand : ∃ back, expand K part array.dataType encoding = .ok back ∧ M.Rows array start len back := by
    unfold expand
    cases encoding with
    | plain => exact ⟨part, rfl, hstands.rows hrows⟩
    | dictionary =>
        obtain ⟨hworth, -, htype, hvalues, encoded, hcast⟩ := hstands
        obtain ⟨back, hback, hbackRows⟩ := cast_rows L h hworth (.inl rfl) htype hvalues hcast hrows
        exact ⟨back, by rw [hback], hbackRows⟩
    | runLength =>
        obtain ⟨hworth, -, htype, hvalues, encoded, hcast⟩ := hstands
        obtain ⟨back, hback, hbackRows⟩ := cast_rows L h hworth (.inr rfl) htype hvalues hcast hrows
        exact ⟨back, by rw [hback], hbackRows⟩
  obtain ⟨back, hback, hbackRows⟩ := hexpand
  refine ⟨back, ?_, hbackRows⟩
  have hstored : ¬(start > array.len ∨ start + len > array.len) := by omega
  rw [decodeColumnRows, add_eq (hinside.trans_lt (L.len_lt h))]
  simp only [bind, Except.bind, if_neg hstored, List.isEmpty_nil, if_true, hrebuild, hpart, hback]

end Whole

section Encoded

variable {ν : Type} {K : Kit} {M : Meaning ν} {whole : Bytes} {array : ArrayData}

/-- How an encoded column came about: from the array itself, or from what a cast made of it. -/
inductive Encodes (K : Kit) (array : ArrayData) (encoded : EncodedColumn) : Prop where
  | plain (zone : ZoneMap) (hencoding : encoded.encoding = .plain) (h : encodePlain K array zone = .ok encoded)
  | recast (cast : ArrayData) (zone : ZoneMap) (column : EncodedColumn) (hencoding : encoded.encoding ≠ .plain)
      (hworth : worthReEncoding array.dataType = true)
      (hcast : K.cast array (storedType array.dataType encoded.encoding) = .ok cast)
      (h : encodePlain K cast zone = .ok column) (hsame : SameStored column encoded)

theorem encodePlain_ok {zone : ZoneMap} {encoded : EncodedColumn} (h : encodePlain K array zone = .ok encoded) :
    encoded.encoding = .plain ∧ encoded.len = (storedArray K array).len := by
  unfold encodePlain at h
  cases hdepth : array.dataType.depth with
  | zero =>
      rw [hdepth] at h
      cases h
  | succ depth =>
      rw [hdepth] at h
      obtain ⟨children, -, rfl⟩ := encodePlainTo_ok h
      exact ⟨rfl, rfl⟩

theorem tryDictionary_encodes {zone : ZoneMap} {encoded : EncodedColumn} (h : tryDictionary K array zone = .ok (some encoded)) :
    Encodes K array encoded := by
  unfold tryDictionary at h
  split at h
  · cases h
  · next hworth =>
      rw [not_or, not_not] at hworth
      split at h
      · cases h
      · next cast hcast =>
          split at h
          · cases h
          · obtain ⟨column, hcolumn, h⟩ := bind_eq_ok.mp h
            obtain rfl := Option.some.inj (Except.ok.inj h)
            exact .recast cast zone column nofun hworth.1 hcast hcolumn ⟨rfl, rfl, rfl, rfl⟩

theorem tryRunLength_encodes {zone : ZoneMap} {encoded : EncodedColumn} (h : tryRunLength K array zone = .ok (some encoded)) :
    Encodes K array encoded := by
  unfold tryRunLength at h
  split at h
  · cases h
  · next hworth =>
      rw [not_or, not_not] at hworth
      split at h
      · cases h
      · next cast hcast =>
          split at h
          · cases h
          · obtain ⟨column, hcolumn, h⟩ := bind_eq_ok.mp h
            obtain rfl := Option.some.inj (Except.ok.inj h)
            exact .recast cast zone column nofun hworth.1 hcast hcolumn ⟨rfl, rfl, rfl, rfl⟩

theorem candidate_encodes {wanted : Bool} {attempt : Except Error (Option EncodedColumn)} {found : Option EncodedColumn}
    (hattempt : ∀ encoded, attempt = .ok (some encoded) → Encodes K array encoded)
    (h : candidate wanted attempt = .ok found) : ∀ encoded, found = some encoded → Encodes K array encoded := by
  rintro encoded rfl
  unfold candidate at h
  split at h
  · exact hattempt encoded h
  · cases h

theorem smaller_encodes {best : EncodedColumn} {candidate : Option EncodedColumn} (hbest : Encodes K array best)
    (hcandidate : ∀ encoded, candidate = some encoded → Encodes K array encoded) : Encodes K array (smaller best candidate) := by
  unfold smaller
  split
  · next encoded =>
      split
      · exact hcandidate encoded rfl
      · exact hbest
  · exact hbest

theorem encodeColumn_encodes {options : Options} {encoded : EncodedColumn} (h : encodeColumn K array options = .ok encoded) :
    Encodes K array encoded := by
  unfold encodeColumn at h
  obtain ⟨plain, hplain, h⟩ := bind_eq_ok.mp h
  have hbase : Encodes K array plain := .plain _ (encodePlain_ok hplain).1 hplain
  obtain ⟨dictionary, hdictionary, h⟩ := bind_eq_ok.mp h
  obtain ⟨runs, hruns, h⟩ := bind_eq_ok.mp h
  obtain rfl := Except.ok.inj h
  exact smaller_encodes (smaller_encodes hbase (candidate_encodes (fun _ => tryDictionary_encodes) hdictionary))
    (candidate_encodes (fun _ => tryRunLength_encodes) hruns)

/-- A column that was encoded and written in one piece is served by its chunk. -/
theorem serves_encoded (L : K.Lawful M) (hwhole : whole.length < usizeLimit) (h : M.Valid array) {encoded : EncodedColumn}
    (hencoded : Encodes K array encoded) {codec : Codec} {side : List (BufferRole × StoredBuffer)}
    (hside : Beside (side.map Prod.fst)) {bytes bytes' : Bytes} {chunk : ColumnChunk}
    (hwritten : writeChunk K codec side encoded bytes = .ok (bytes', chunk)) (hstarts : bytes' <+: whole) :
    Serves K M whole array chunk := by
  have hchunk : chunk.blocks = [] ∧ chunk.len = encoded.len ∧ chunk.encoding = encoded.encoding := by
    obtain ⟨_, _, _, _, -, -, -, rfl⟩ := writeChunk_ok hwritten
    exact ⟨rfl, rfl, rfl⟩
  cases hencoded with
  | plain zone hencoding hplain =>
      obtain ⟨built, hbuilt, hsame⟩ := rebuild_written L hwhole _ h hplain ⟨rfl, rfl, rfl, rfl⟩ hside hwritten hstarts
      have hencoding' : chunk.encoding = .plain := hchunk.2.2.trans hencoding
      have hlen : chunk.len = array.len := by
        rw [hchunk.2.1, (encodePlain_ok hplain).2, Kit.Lawful.same_len L h (L.storedArray_same h)]
      have hstands : Stands K M array built chunk.encoding := by
        rw [hencoding']
        exact hsame
      exact serves_of_rebuild L h hchunk.1 hlen (by rw [hencoding']; exact hbuilt) hstands
  | recast cast zone column hencoding hworth hcast hplain hstored =>
      have hform : ReEncoded array.dataType (storedType array.dataType encoded.encoding) := by
        cases hkind : encoded.encoding with
        | plain => exact absurd hkind hencoding
        | dictionary => exact .inl rfl
        | runLength => exact .inr rfl
      obtain ⟨hvalid, htype, hvalues⟩ := L.cast h hworth hform hcast
      obtain ⟨built, hbuilt, hsame⟩ := rebuild_written L hwhole _ hvalid hplain hstored hside hwritten hstarts
      have hlen : chunk.len = array.len := by
        rw [hchunk.2.1, hstored.len, (encodePlain_ok hplain).2, Kit.Lawful.same_len L hvalid (L.storedArray_same hvalid),
          ← L.length_values hvalid, hvalues, L.length_values h]
      have hparts : worthReEncoding array.dataType = true ∧ M.Valid built ∧
          built.dataType = storedType array.dataType encoded.encoding ∧ M.values built = M.values array ∧
          ∃ other, K.cast array (storedType array.dataType encoded.encoding) = .ok other :=
        ⟨hworth, hsame.valid, hsame.dataType.trans htype, hsame.values.trans hvalues, cast, hcast⟩
      have hstands : Stands K M array built chunk.encoding := by
        rw [hchunk.2.2]
        generalize encoded.encoding = encoding at hencoding hparts
        cases encoding with
        | plain => exact absurd rfl hencoding
        | dictionary => exact hparts
        | runLength => exact hparts
      exact serves_of_rebuild L h hchunk.1 hlen (by rw [hchunk.2.2, ← htype]; exact hbuilt) hstands

end Encoded

section Blocks

theorem forall₂_getElem? {α β : Type} {R : α → β → Prop} {as : List α} {bs : List β} (h : List.Forall₂ R as bs) {index : Nat}
    {b : β} (hb : bs[index]? = some b) : ∃ a, as[index]? = some a ∧ R a b := by
  induction h generalizing index with
  | nil => cases hb
  | cons hone _ ih =>
      cases index with
      | zero =>
          obtain rfl := Option.some.inj hb
          exact ⟨_, rfl, hone⟩
      | succ index => exact ih hb

theorem forall₂_getElem?_left {α β : Type} {R : α → β → Prop} {as : List α} {bs : List β} (h : List.Forall₂ R as bs) {index : Nat}
    {a : α} (ha : as[index]? = some a) : ∃ b, bs[index]? = some b ∧ R a b :=
  forall₂_getElem? h.flip ha

variable {ν : Type} {K : Kit} {M : Meaning ν} {whole : Bytes} {array : ArrayData}

/-- The rows of the blocks follow each other, each block but the last as long as the rest. -/
theorem blockRanges_getElem? {blockRows rows : Nat} (hblock : 0 < blockRows) (left : Nat) : ∀ {start : Nat}, rows - start ≤ left →
    ∀ index, (blockRanges blockRows rows start left)[index]? =
      if start + index * blockRows < rows then
        some (start + index * blockRows, min blockRows (rows - (start + index * blockRows)))
      else none := by
  induction left with
  | zero =>
      intro start hleft index
      rw [blockRanges, if_neg (by omega)]
      rfl
  | succ left ih =>
      intro start hleft index
      rw [blockRanges]
      split
      · next hlt =>
          cases index with
          | zero =>
              rw [Nat.zero_mul, Nat.add_zero, if_pos hlt]
              rfl
          | succ index =>
              dsimp only
              rw [List.getElem?_cons_succ, ih (by omega), Nat.succ_mul]
              by_cases hlast : start + blockRows ≤ rows
              · rw [min_eq_left (by omega), Nat.add_assoc, Nat.add_comm blockRows]
              · rw [if_neg (by omega), if_neg (by omega)]
      · next hge => rw [if_neg (by omega)]; rfl

theorem decodeBlock_eq {source : BufferSource} {count : Nat} {type : DataType} {blockRows start stop index : Nat} :
    ∀ {blocks : List ColumnChunk} {left : Nat} {block : ColumnChunk}, blocks[left]? = some block →
      decodeBlock K source blocks count type blockRows start stop index left = (do
        let range ← blockOverlap blockRows block.len start stop index
        decodeColumnRows K source block type range.1 range.2)
  | block :: blocks, 0, other, h => by
      obtain rfl := Option.some.inj h
      rw [decodeBlock]
  | _ :: blocks, left + 1, block, h => by
      rw [decodeBlock]
      exact decodeBlock_eq h
  | [], left, block, h => by cases h

/-- The pieces of a range join to its rows. -/
theorem joinParts_rows (L : K.Lawful M) (h : M.Valid array) {parts : List ArrayData} {start len : Nat} (hparts : parts ≠ [])
    (hpart : ∀ part ∈ parts, M.Valid part ∧ part.dataType = array.dataType ∧ (array.nullCount = 0 → part.nullCount = 0))
    (hvalues : parts.flatMap M.values = ((M.values array).drop start).take len) :
    ∃ joined, joinParts K parts = .ok joined ∧ M.Rows array start len joined := by
  have htyped : ∀ part ∈ parts, M.Valid part ∧ part.dataType = array.dataType := fun part hmem =>
    ⟨(hpart part hmem).1, (hpart part hmem).2.1⟩
  have hfits : M.Fits array.dataType (parts.flatMap M.values) := hvalues ▸ L.fits_part (L.fits h)
  unfold joinParts
  split
  · next part =>
      obtain ⟨hvalid, htype, hnulls⟩ := hpart part (List.mem_singleton_self part)
      rw [List.flatMap_singleton] at hvalues
      exact ⟨part, rfl, hvalid, htype, hvalues, hnulls⟩
  · obtain ⟨joined, hjoined⟩ := L.concat_fits hparts htyped hfits
    obtain ⟨hvalid, htype, hjoinedValues, hcount⟩ := L.concat hparts htyped hjoined
    refine ⟨joined, by rw [hjoined], hvalid, htype, hjoinedValues.trans hvalues, fun hzero => ?_⟩
    rw [hcount]
    refine List.sum_eq_zero ?_
    intro count hcounted
    obtain ⟨part, hmem, rfl⟩ := List.mem_map.mp hcounted
    exact (hpart part hmem).2.2 hzero

/-- A block serves its own rows of a column. -/
def BlockServes (K : Kit) (M : Meaning ν) (whole : Bytes) (array : ArrayData) (blockRows index : Nat) (block : ColumnChunk) : Prop :=
  Serves K M whole (K.slice array (index * blockRows) (min blockRows (array.len - index * blockRows))) block

/-- What a range asks of one block is what the block holds of it. -/
theorem decodeBlock_rows (L : K.Lawful M) (h : M.Valid array) {blocks : List ColumnChunk} {blockRows start stop index : Nat}
    {block : ColumnChunk} (hat : blocks[index]? = some block) (hserves : BlockServes K M whole array blockRows index block)
    (hstop : stop ≤ array.len) (hle : start ≤ stop) (hindex : index * blockRows < stop) (hreach : start ≤ (index + 1) * blockRows) :
    ∃ part, decodeBlock K (segmentBytes whole) blocks blocks.length array.dataType blockRows start stop index index = .ok part ∧
      M.Rows array (max start (index * blockRows)) (min stop ((index + 1) * blockRows) - max start (index * blockRows)) part := by
  rw [Nat.succ_mul] at hreach ⊢
  have hwords := L.len_lt h
  have hslice : index * blockRows + min blockRows (array.len - index * blockRows) ≤ array.len := by omega
  have hpiece := L.slice h hslice
  have hblockLen : block.len = min blockRows (array.len - index * blockRows) := hserves.len.trans (L.slice_len h hslice)
  have hserved := hserves.rows (max start (index * blockRows) - index * blockRows)
    (min stop (index * blockRows + block.len) - index * blockRows - (max start (index * blockRows) - index * blockRows))
  rw [L.slice_len h hslice, hpiece.dataType] at hserved
  rw [decodeBlock_eq hat, blockOverlap_eq (by omega) hle hindex.le (by omega) (by omega)]
  generalize index * blockRows = blockStart at *
  obtain ⟨part, hpart, hrows⟩ := hserved (by omega)
  refine ⟨part, hpart, hrows.valid, hrows.dataType.trans hpiece.dataType, ?_, fun hzero => hrows.nullCount (hpiece.nullCount hzero)⟩
  rw [hrows.values, hpiece.values, List.drop_take, List.drop_drop, List.take_take,
    show blockStart + (max start blockStart - blockStart) = max start blockStart by omega]
  congr 1
  omega

/-- A chunk cut into blocks serves the rows of its column. -/
theorem serves_blocks (L : K.Lawful M) (h : M.Valid array) {chunk : ColumnChunk} (hlen : chunk.len = array.len)
    (hrows : 0 < chunk.blockRows) (hblocks : chunk.blocks ≠ []) (hroom : chunk.blocks.length * 16 < 2 ^ 63)
    (hblock : ∀ index, index * chunk.blockRows < array.len →
      ∃ block, chunk.blocks[index]? = some block ∧ BlockServes K M whole array chunk.blockRows index block) :
    Serves K M whole array chunk := by
  refine ⟨hlen, fun start len hinside => ?_⟩
  obtain ⟨encoding, codec, stored, nullCount, dictLen, runCount, offset, buffers, children, zone, blockRows, blocks⟩ := chunk
  dsimp only at hlen hrows hblocks hroom hblock
  subst hlen
  have hstored : ¬(start > array.len ∨ start + len > array.len) := by omega
  have hnotEmpty : ¬blocks.isEmpty = true := by simpa using hblocks
  rw [decodeColumnRows, add_eq (hinside.trans_lt (L.len_lt h))]
  simp only [bind, Except.bind, if_neg hstored, if_neg hnotEmpty, if_neg hrows.ne']
  by_cases hempty : len = 0
  · rw [if_pos hempty]
    obtain ⟨hvalid, htype, hvalues, hnulls⟩ := L.newEmptyArray ⟨array, h, rfl⟩
    refine ⟨_, rfl, hvalid, htype, ?_, fun _ => hnulls⟩
    rw [hvalues, hempty, List.take_zero]
  · rw [if_neg hempty]
    have hfirst : start / blockRows ≤ (start + len - 1) / blockRows := Nat.div_le_div_right (by omega)
    have hlastRow : (start + len - 1) / blockRows * blockRows ≤ start + len - 1 := Nat.div_mul_le_self _ _
    obtain ⟨lastBlock, hlastBlock, -⟩ := hblock ((start + len - 1) / blockRows) (by omega)
    have hcount : (start + len - 1) / blockRows < blocks.length := (List.getElem?_eq_some_iff.mp hlastBlock).1
    have hstart : start ≤ (start / blockRows + 1) * blockRows := by
      rw [Nat.mul_comm]
      exact (Nat.lt_mul_div_succ start hrows).le
    have hparts : ∀ index ∈ List.range' (start / blockRows) ((start + len - 1) / blockRows - start / blockRows + 1),
        ∃ part, decodeBlock K (segmentBytes whole) blocks blocks.length array.dataType blockRows start (start + len) index
            index = .ok part ∧
          M.Rows array (max start (index * blockRows))
            (min (start + len) ((index + 1) * blockRows) - max start (index * blockRows)) part := by
      intro index hmem
      obtain ⟨hlow, hhigh⟩ := List.mem_range'_1.mp hmem
      have hbefore : index * blockRows ≤ (start + len - 1) / blockRows * blockRows := Nat.mul_le_mul_right _ (by omega)
      have hafter : (start / blockRows + 1) * blockRows ≤ (index + 1) * blockRows := Nat.mul_le_mul_right _ (by omega)
      obtain ⟨block, hat, hserves⟩ := hblock index (by omega)
      exact decodeBlock_rows L h hat hserves hinside (Nat.le_add_right _ _) (by omega) (hstart.trans hafter)
    obtain ⟨parts, hparts, hall⟩ := mapM_forall₂ hparts
    have hfew : (start + len - 1) / blockRows - start / blockRows + 1 ≤ blocks.length :=
      (Nat.succ_le_succ (Nat.sub_le _ _)).trans hcount
    have hcapacity : withCapacity ((start + len - 1) / blockRows - start / blockRows + 1) = .ok () := if_pos (by omega)
    rw [hcapacity]
    dsimp only
    rw [hparts]
    refine joinParts_rows L h ?_ ?_ ?_
    · rintro rfl
      cases hall
    · intro part hmem
      obtain ⟨position, hposition⟩ := List.getElem?_of_mem hmem
      obtain ⟨index, -, hindex⟩ := forall₂_getElem? hall hposition
      exact ⟨hindex.valid, hindex.dataType, hindex.nullCount⟩
    · have hpieces : parts.flatMap M.values = pieces (M.values array)
          ((List.range' (start / blockRows) ((start + len - 1) / blockRows - start / blockRows + 1)).map fun index =>
            (max start (index * blockRows), min (start + len) ((index + 1) * blockRows) - max start (index * blockRows))) := by
        clear hparts
        rw [pieces, List.flatMap_map]
        generalize List.range' (start / blockRows) ((start + len - 1) / blockRows - start / blockRows + 1) = indices at hall ⊢
        induction hall with
        | nil => rfl
        | cons hone _ ih => rw [List.flatMap_cons, List.flatMap_cons, hone.values, ih]
      rw [hpieces, pieces_blocks _ (Nat.div_mul_le_self _ _) hstart _ (by
        rw [Nat.add_sub_cancel' hfirst]
        omega), Nat.add_sub_cancel' hfirst]
      congr 1
      have := Nat.lt_mul_div_succ (start + len - 1) hrows
      rw [Nat.mul_comm] at this
      omega

/-- How a block was written. -/
def BlockWritten (K : Kit) (array : ArrayData) (codec : Codec) (options : Options) (bytes : Bytes) (range : Nat × Nat)
    (block : ColumnChunk) : Prop :=
  ∃ piece before after, encodeColumn K (K.slice array range.1 range.2) options = .ok piece ∧
    writeChunk K codec [] piece before = .ok (after, block) ∧ after <+: bytes

theorem foldlM_writeBlock {codec : Codec} {options : Options} {ranges : List (Nat × Nat)} {bytes bytes' : Bytes}
    {blocks blocks' : List ColumnChunk}
    (h : ranges.foldlM (writeBlock K array codec options) (bytes, blocks) = .ok (bytes', blocks')) :
    ∃ new, blocks' = blocks ++ new ∧ bytes <+: bytes' ∧ List.Forall₂ (BlockWritten K array codec options bytes') ranges new ∧
      Between bytes.length bytes'.length (new.flatMap ColumnChunk.extents) := by
  induction ranges generalizing bytes blocks with
  | nil =>
      obtain ⟨rfl, rfl⟩ := Prod.mk.inj (Except.ok.inj h)
      exact ⟨[], (List.append_nil _).symm, List.prefix_refl _, .nil, fun _ h => nomatch h⟩
  | cons range ranges ih =>
      rw [List.foldlM_cons] at h
      obtain ⟨⟨middle, blocks₁⟩, hone, h⟩ := bind_eq_ok.mp h
      unfold writeBlock at hone
      obtain ⟨piece, hpiece, hone⟩ := bind_eq_ok.mp hone
      obtain ⟨⟨after, block⟩, hwritten, hone⟩ := bind_eq_ok.mp hone
      obtain ⟨rfl, rfl⟩ := Prod.mk.inj (Except.ok.inj hone)
      obtain ⟨new, rfl, hstarts, hall, hbetween⟩ := ih h
      obtain ⟨hgrows, hextents⟩ := writeChunk_between hwritten
      refine ⟨block :: new, by simp, hgrows.trans hstarts, .cons ⟨piece, bytes, after, hpiece, hwritten, hstarts⟩ hall, ?_⟩
      rw [List.flatMap_cons]
      exact (hextents.mono le_rfl hstarts.length_le).append (hbetween.mono hgrows.length_le le_rfl)

/-- What writing a column in blocks does. -/
theorem writeBlockedChunk_ok {encoded : EncodedColumn} {codec : Codec} {options : Options}
    {side : List (BufferRole × StoredBuffer)} {bytes bytes' : Bytes} {chunk : ColumnChunk}
    (hwanted : blocksWanted array codec options = true)
    (h : writeBlockedChunk K array encoded codec options side bytes = .ok (bytes', chunk)) :
    ∃ middle blocks outer, (blockRanges options.compressionBlockRows array.len 0 array.len).foldlM
        (writeBlock K array codec options) (bytes, []) = .ok (middle, blocks) ∧
      writeChunk K codec side { encoded with buffers := [], children := [] } middle = .ok (bytes', outer) ∧
      chunk = { outer with
        blockRows := options.compressionBlockRows
        codec := if blocks.any fun block => block.codec ≠ .none then codec else .none
        blocks := blocks } := by
  unfold writeBlockedChunk at h
  rw [if_neg (not_not.mpr hwanted)] at h
  obtain ⟨⟨middle, blocks⟩, hblocks, h⟩ := bind_eq_ok.mp h
  obtain ⟨⟨bytes'', outer⟩, houter, h⟩ := bind_eq_ok.mp h
  obtain ⟨rfl, rfl⟩ := Prod.mk.inj (Except.ok.inj h)
  exact ⟨middle, blocks, outer, hblocks, houter, rfl⟩

theorem writeChunk_len {codec : Codec} {side : List (BufferRole × StoredBuffer)} {encoded : EncodedColumn} {bytes bytes' : Bytes}
    {chunk : ColumnChunk} (h : writeChunk K codec side encoded bytes = .ok (bytes', chunk)) : chunk.len = encoded.len := by
  obtain ⟨_, _, _, _, -, -, -, rfl⟩ := writeChunk_ok h
  rfl

/-- A column that was written is served by its chunk, in one piece or in blocks. -/
theorem serves_written (L : K.Lawful M) (hwhole : whole.length < usizeLimit) (h : M.Valid array) {encoded : EncodedColumn}
    {codec : Codec} {options : Options} {side : List (BufferRole × StoredBuffer)} (hside : Beside (side.map Prod.fst))
    (hencoded : blocksWanted array codec options = false → Encodes K array encoded)
    (hlen : blocksWanted array codec options = true → encoded.len = array.len) {bytes bytes' : Bytes} {chunk : ColumnChunk}
    (hwritten : writeBlockedChunk K array encoded codec options side bytes = .ok (bytes', chunk)) (hstarts : bytes' <+: whole)
    (hroom : chunk.blocks.length * 16 < 2 ^ 63) : Serves K M whole array chunk := by
  by_cases hwanted : blocksWanted array codec options = true
  · obtain ⟨middle, blocks, outer, hblocks, houter, rfl⟩ := writeBlockedChunk_ok hwanted hwritten
    obtain ⟨new, rfl, -, hall, -⟩ := foldlM_writeBlock hblocks
    have hmiddle := (writeChunk_between houter).1.trans hstarts
    have hpos : 0 < options.compressionBlockRows ∧ options.compressionBlockRows < array.len := by
      simp only [blocksWanted, Bool.and_eq_true, decide_eq_true_eq] at hwanted
      exact ⟨hwanted.1.1, hwanted.1.2⟩
    have hranges := blockRanges_getElem? hpos.1 array.len (show array.len - 0 ≤ array.len by omega)
    have hblock : ∀ index, index * options.compressionBlockRows < array.len →
        ∃ block, blocks[index]? = some block ∧ BlockServes K M whole array options.compressionBlockRows index block := by
      intro index hindex
      have hrange := hranges index
      rw [Nat.zero_add, if_pos hindex] at hrange
      obtain ⟨block, hat, piece, before, after, hpiece, hwrite, hafter⟩ := forall₂_getElem?_left hall hrange
      refine ⟨block, hat, ?_⟩
      have hslice : index * options.compressionBlockRows +
          min options.compressionBlockRows (array.len - index * options.compressionBlockRows) ≤ array.len := by omega
      exact serves_encoded L hwhole (L.slice h hslice).valid (encodeColumn_encodes hpiece) (fun _ h => by cases h) hwrite
        (hafter.trans hmiddle)
    refine serves_blocks L h ((writeChunk_len houter).trans (hlen hwanted)) hpos.1 ?_ hroom hblock
    rintro rfl
    obtain ⟨block, hat, -⟩ := hblock 0 (by omega)
    cases hat
  · unfold writeBlockedChunk at hwritten
    rw [if_pos hwanted] at hwritten
    exact serves_encoded L hwhole h (hencoded (Bool.eq_false_iff.mpr hwanted)) hside hwritten hstarts

end Blocks

end Segment

end LocalTables
