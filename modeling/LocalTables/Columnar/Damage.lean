import LocalTables.Columnar.Building

/-! Reading segments whose metadata may say anything. A number of the metadata that takes a sum out of the machine's words, or a
block shorter than the rows before a range, ends a read in a panic. -/

namespace LocalTables

namespace Segment

open Outcome

/-- A place that ends within the words of the machine. -/
def Addressable (extent : Extent) : Prop := extent.offset + extent.len < usizeLimit

section Damage

variable (K : Kit) (bytes : Bytes)

/-- A buffer that can be asked for and that, where the segment holds it as it was stored and it was packed, is not said to
expand to more than memory holds. -/
def BufferSpec.Loadable (codec : Codec) (spec : BufferSpec) : Prop :=
  Addressable spec.extent ∧
    (spec.extent.offset + spec.extent.len ≤ bytes.length →
      K.checksum ((bytes.drop spec.extent.offset).take spec.extent.len) = spec.checksum →
      codec ≠ .none → spec.extent.len ≠ spec.uncompressedLen → spec.uncompressedLen ≤ allocLimit)

mutual

/-- The buffers an array is rebuilt from, here and below, can be loaded, each where those before it are. -/
def Rebuildable : ColumnChunk → DataType → Prop
  | ⟨_, codec, len, _, _, _, _, buffers, children, _, _, _⟩, type =>
      (∀ spec, (buffers.find? fun spec => spec.role == .validity) = some spec → spec.Loadable K bytes codec) ∧
        (Returns (decodeNulls K (segmentBytes bytes) buffers codec len) →
          InTurn (fun spec => load K (segmentBytes bytes) spec codec) (fun spec => spec.Loadable K bytes codec)
              (buffers.filter fun spec => spec.role == .data) ∧
            ((∀ spec ∈ buffers.filter fun spec => spec.role == .data, Returns (load K (segmentBytes bytes) spec codec)) →
              children.length = type.childDataTypes.length → ChildrenRebuildable children type.childDataTypes))

def ChildrenRebuildable : List ColumnChunk → List DataType → Prop
  | chunk :: chunks, type :: types =>
      Rebuildable chunk type ∧ (Returns (rebuild K (segmentBytes bytes) chunk type) → ChildrenRebuildable chunks types)
  | _, _ => True

end

mutual

/-- Some rows of a chunk can be read: the range ends within the words of the machine, and where the chunk has it, what it
touches can be rebuilt, or read of the blocks, each where those before it are. -/
def Readable : ColumnChunk → DataType → Nat → Nat → Prop
  | ⟨encoding, codec, stored, nullCount, dictLen, runCount, offset, buffers, children, zone, blockRows, blocks⟩,
      type, start, len =>
      start + len < usizeLimit ∧ (start + len ≤ stored →
        if blocks.isEmpty then
          Rebuildable K bytes
            ⟨encoding, codec, stored, nullCount, dictLen, runCount, offset, buffers, children, zone, blockRows, blocks⟩
            (storedType type encoding)
        else blockRows ≠ 0 → len ≠ 0 →
          ((start + len - 1) / blockRows - start / blockRows + 1) * 16 < 2 ^ 63 ∧
            ∀ index, start / blockRows ≤ index → index ≤ (start + len - 1) / blockRows →
              (∀ earlier, start / blockRows ≤ earlier → earlier < index →
                Returns (decodeBlock K (segmentBytes bytes) blocks blocks.length type blockRows start (start + len)
                  earlier earlier)) →
              BlockReadable blocks type blockRows start (start + len) index index)

/-- What a range asks of the block that stands `left` places on can be read: the block reaches as far as the range asks. -/
def BlockReadable : List ColumnChunk → DataType → Nat → Nat → Nat → Nat → Nat → Prop
  | [], _, _, _, _, _, _ => True
  | block :: _, type, blockRows, start, stop, index, 0 =>
      index * blockRows + block.len < usizeLimit ∧ start ≤ index * blockRows + block.len ∧
        Readable block type (max start (index * blockRows) - index * blockRows)
          (min stop (index * blockRows + block.len) - index * blockRows - (max start (index * blockRows) - index * blockRows))
  | _ :: blocks, type, blockRows, start, stop, index, left + 1 => BlockReadable blocks type blockRows start stop index left

end

end Damage

section Decode

variable {K : Kit} {bytes : Bytes}

theorem segmentBytes_safe {extent : Extent} : NoPanic (segmentBytes bytes extent) ↔ Addressable extent := by
  unfold segmentBytes
  rw [NoPanic.bind_iff, NoPanic.add_iff]
  refine and_iff_left_of_imp fun _ stop hstop => ?_
  obtain ⟨-, rfl⟩ := add_eq_ok.mp hstop
  split
  · exact NoPanic.fail _
  · exact NoPanic.slice (Nat.le_add_right _ _) (by omega)

theorem segmentBytes_eq_ok {extent : Extent} {stored : Bytes} : segmentBytes bytes extent = .ok stored ↔
    Addressable extent ∧ extent.offset + extent.len ≤ bytes.length ∧ stored = (bytes.drop extent.offset).take extent.len := by
  unfold segmentBytes
  constructor
  · intro h
    obtain ⟨stop, hstop, h⟩ := bind_eq_ok.mp h
    obtain ⟨hwords, rfl⟩ := add_eq_ok.mp hstop
    split at h
    · cases h
    · obtain ⟨-, hinside, rfl⟩ := slice_eq_ok.mp h
      rw [Nat.add_sub_cancel_left]
      exact ⟨hwords, hinside, rfl⟩
  · rintro ⟨hwords, hinside, rfl⟩
    apply bind_eq_ok.mpr
    refine ⟨_, add_eq hwords, ?_⟩
    rw [if_neg (Nat.not_lt.mpr hinside), slice_eq (Nat.le_add_right _ _) hinside, Nat.add_sub_cancel_left]

theorem decompress_safe {codec : Codec} {stored : Bytes} {len : Nat} (hcodec : codec ≠ .none) :
    NoPanic (K.decompress codec stored len) ↔ len ≤ allocLimit := by
  unfold Kit.decompress
  rw [if_neg hcodec]
  by_cases hroom : len ≤ allocLimit
  · rw [if_neg (Nat.not_lt.mpr hroom)]
    refine ⟨fun _ => hroom, fun _ => ?_⟩
    split
    · exact NoPanic.fail _
    · split
      · exact NoPanic.fail _
      · exact NoPanic.ok _
  · rw [if_pos (Nat.not_le.mp hroom)]
    exact ⟨fun h => absurd rfl (h _), fun h => absurd h hroom⟩

theorem load_safe {spec : BufferSpec} {codec : Codec} :
    NoPanic (load K (segmentBytes bytes) spec codec) ↔ spec.Loadable K bytes codec := by
  unfold load
  rw [NoPanic.bind_iff, segmentBytes_safe, BufferSpec.Loadable]
  refine and_congr_right fun hwords => ?_
  have hloaded : (∀ stored, segmentBytes bytes spec.extent = .ok stored →
        K.checksum stored = spec.checksum → codec ≠ .none → stored.length ≠ spec.uncompressedLen →
          spec.uncompressedLen ≤ allocLimit) ↔
      (spec.extent.offset + spec.extent.len ≤ bytes.length →
        K.checksum ((bytes.drop spec.extent.offset).take spec.extent.len) = spec.checksum →
        codec ≠ .none → spec.extent.len ≠ spec.uncompressedLen → spec.uncompressedLen ≤ allocLimit) := by
    have hlength : spec.extent.offset + spec.extent.len ≤ bytes.length →
        ((bytes.drop spec.extent.offset).take spec.extent.len).length = spec.extent.len := by
      intro hinside
      rw [List.length_take, List.length_drop]
      omega
    constructor
    · intro h hinside hchecksum hcodec hpacked
      exact h _ (segmentBytes_eq_ok.mpr ⟨hwords, hinside, rfl⟩) hchecksum hcodec ((hlength hinside).symm ▸ hpacked)
    · intro h stored hstored
      obtain ⟨-, hinside, rfl⟩ := segmentBytes_eq_ok.mp hstored
      rw [hlength hinside]
      exact h hinside
  rw [← hloaded]
  refine forall_congr' fun stored => imp_congr_right fun _ => ?_
  by_cases hchecksum : K.checksum stored = spec.checksum
  · rw [if_neg (not_not.mpr hchecksum)]
    by_cases hraw : codec = .none ∨ stored.length = spec.uncompressedLen
    · rw [if_pos hraw]
      exact ⟨fun _ _ hcodec hpacked => absurd hraw (not_or.mpr ⟨hcodec, hpacked⟩), fun _ => NoPanic.pure _⟩
    · rw [if_neg hraw]
      obtain ⟨hcodec, hpacked⟩ := not_or.mp hraw
      rw [decompress_safe hcodec]
      exact ⟨fun h _ _ _ => h, fun h => h hchecksum hcodec hpacked⟩
  · rw [if_pos hchecksum]
    exact ⟨fun _ heq => absurd heq hchecksum, fun _ => NoPanic.fail _⟩

theorem decodeNulls_safe {buffers : List BufferSpec} {codec : Codec} {len : Nat} :
    NoPanic (decodeNulls K (segmentBytes bytes) buffers codec len) ↔
      ∀ spec, (buffers.find? fun spec => spec.role == .validity) = some spec → spec.Loadable K bytes codec := by
  unfold decodeNulls
  split
  · next hnone => exact ⟨fun _ spec hspec => (nomatch hnone.symm.trans hspec), fun _ => NoPanic.pure _⟩
  · next spec hspec =>
      rw [NoPanic.bind_iff, load_safe, hspec]
      constructor
      · rintro ⟨h, -⟩ other hother
        exact Option.some.inj hother ▸ h
      · intro h
        refine ⟨h spec rfl, fun buffer _ => ?_⟩
        dsimp only
        split
        · exact NoPanic.fail _
        · exact NoPanic.pure _

theorem loadAll_safe {specs : List BufferSpec} {codec : Codec} :
    NoPanic (specs.mapM fun spec => load K (segmentBytes bytes) spec codec) ↔
      InTurn (fun spec => load K (segmentBytes bytes) spec codec) (fun spec => spec.Loadable K bytes codec) specs := by
  rw [NoPanic.mapM_iff]
  exact InTurn.congr fun spec _ => load_safe

mutual

theorem rebuild_safe : ∀ {chunk : ColumnChunk} {type : DataType},
    NoPanic (rebuild K (segmentBytes bytes) chunk type) ↔ Rebuildable K bytes chunk type
  | ⟨_, codec, len, _, _, _, _, buffers, children, _, _, _⟩, type => by
      rw [rebuild, Rebuildable, NoPanic.bind_iff, decodeNulls_safe, ← Returns.forall_iff]
      refine and_congr_right fun _ => forall_congr' fun nulls => imp_congr_right fun _ => ?_
      rw [NoPanic.bind_iff, loadAll_safe, ← Returns.mapM_iff, ← Returns.forall_iff]
      refine and_congr_right fun _ => forall_congr' fun data => imp_congr_right fun _ => ?_
      by_cases hcount : children.length = type.childDataTypes.length
      · rw [if_neg (not_not.mpr hcount), NoPanic.bind_iff, rebuildChildren_safe]
        refine ⟨fun h _ => h.1, fun h => ⟨h hcount, fun below _ => ?_⟩⟩
        split
        · exact NoPanic.pure _
        · exact NoPanic.fail _
      · rw [if_pos hcount]
        exact ⟨fun _ hsame => absurd hsame hcount, fun _ => NoPanic.fail _⟩

theorem rebuildChildren_safe : ∀ {chunks : List ColumnChunk} {types : List DataType},
    NoPanic (rebuildChildren K (segmentBytes bytes) chunks types) ↔ ChildrenRebuildable K bytes chunks types
  | chunk :: chunks, type :: types => by
      rw [rebuildChildren, ChildrenRebuildable, NoPanic.bind_iff, rebuild_safe, ← Returns.forall_iff]
      refine and_congr_right fun _ => forall_congr' fun child => imp_congr_right fun _ => ?_
      rw [NoPanic.bind_iff, rebuildChildren_safe]
      exact and_iff_left fun children _ => NoPanic.pure _
  | [], types => by
      rw [rebuildChildren, ChildrenRebuildable]
      · exact ⟨fun _ => trivial, fun _ => NoPanic.pure _⟩
      · simp
      · simp
  | chunk :: chunks, [] => by
      rw [rebuildChildren, ChildrenRebuildable]
      · exact ⟨fun _ => trivial, fun _ => NoPanic.pure _⟩
      · simp
      · simp

end

/-- An array Arrow builds has the rows it was asked for. -/
def Kit.BuildsLen (K : Kit) : Prop := ∀ array built, K.build array = .ok built → built.len = array.len

theorem rebuild_len (hbuild : K.BuildsLen) {source : BufferSource} : ∀ {chunk : ColumnChunk} {type : DataType} {array : ArrayData},
    rebuild K source chunk type = .ok array → array.len = chunk.len
  | ⟨_, _, len, _, _, _, _, _, _, _, _, _⟩, type, array, h => by
      rw [rebuild] at h
      obtain ⟨nulls, -, h⟩ := bind_eq_ok.mp h
      obtain ⟨data, -, h⟩ := bind_eq_ok.mp h
      split at h
      · cases h
      · obtain ⟨below, -, h⟩ := bind_eq_ok.mp h
        split at h
        · next built hbuilt =>
            cases h
            exact hbuild _ _ hbuilt
        · cases h

theorem rowsAsked_safe {array : ArrayData} {stored start len : Nat} (h : start + len ≤ array.len) :
    NoPanic (rowsAsked K array stored start len) := by
  unfold rowsAsked
  split
  · exact NoPanic.ok _
  · rw [sliceRows, if_pos h]
    exact NoPanic.ok _

theorem expand_safe {array : ArrayData} {type : DataType} {encoding : Encoding} : NoPanic (expand K array type encoding) := by
  unfold expand
  split
  · exact NoPanic.ok _
  · split
    · exact NoPanic.ok _
    · exact NoPanic.fail _
  · split
    · exact NoPanic.ok _
    · exact NoPanic.fail _

theorem joinParts_safe {parts : List ArrayData} : NoPanic (joinParts K parts) := by
  unfold joinParts
  split
  · exact NoPanic.ok _
  · split
    · exact NoPanic.ok _
    · exact NoPanic.fail _

theorem withCapacity_safe {count : Nat} : NoPanic (withCapacity count) ↔ count * 16 < 2 ^ 63 := by
  unfold withCapacity
  split
  · next h => exact ⟨fun _ => h, fun _ => NoPanic.ok _⟩
  · next h => exact ⟨fun hsafe => absurd rfl (hsafe _), fun hlt => absurd hlt h⟩

/-- A block that starts before the range ends panics exactly if it ends past the words of the machine or before the range. -/
theorem blockOverlap_safe {blockRows blockLen start stop index : Nat} (hstop : stop < usizeLimit) (hle : start ≤ stop)
    (hindex : index * blockRows ≤ stop) : NoPanic (blockOverlap blockRows blockLen start stop index) ↔
      index * blockRows + blockLen < usizeLimit ∧ start ≤ index * blockRows + blockLen := by
  constructor
  · intro h
    unfold blockOverlap at h
    rw [mul_eq (hindex.trans_lt hstop)] at h
    generalize index * blockRows = blockStart at *
    have hfirst : blockStart ≤ max start blockStart := le_max_right _ _
    have hlast : blockStart ≤ min stop (blockStart + blockLen) := le_min hindex (Nat.le_add_right _ _)
    have h₁ := (NoPanic.bind_iff.mp h).2 _ rfl
    have h₂ := (NoPanic.bind_iff.mp h₁).2 _ (sub_eq hfirst)
    obtain ⟨hadd, h₃⟩ := NoPanic.bind_iff.mp h₂
    have hblock := NoPanic.add_iff.mp hadd
    have h₄ := (NoPanic.bind_iff.mp (h₃ _ (add_eq hblock))).2 _ (sub_eq hlast)
    have hlen := NoPanic.sub_iff.mp (NoPanic.bind_iff.mp h₄).1
    exact ⟨hblock, by omega⟩
  · rintro ⟨hblock, hreach⟩
    rw [blockOverlap_eq hstop hle hindex hblock hreach]
    exact NoPanic.ok _

mutual

theorem decodeColumnRows_safe (hbuild : K.BuildsLen) : ∀ {chunk : ColumnChunk} {type : DataType} {start len : Nat},
    NoPanic (decodeColumnRows K (segmentBytes bytes) chunk type start len) ↔ Readable K bytes chunk type start len
  | ⟨encoding, codec, stored, nullCount, dictLen, runCount, offset, buffers, children, zone, blockRows, blocks⟩,
      type, start, len => by
      rw [decodeColumnRows, Readable, NoPanic.bind_iff, NoPanic.add_iff]
      refine and_congr_right fun hwords => ?_
      rw [add_eq hwords]
      have hstop : ∀ {p : Nat → Prop}, (∀ stop, (.ok (start + len) : Outcome Error Nat) = .ok stop → p stop) ↔ p (start + len) :=
        ⟨fun h => h _ rfl, fun h _ hsame => Except.ok.inj hsame ▸ h⟩
      rw [hstop]
      by_cases hinside : start + len ≤ stored
      · rw [if_neg (by omega)]
        refine Iff.trans ?_ (forall_prop_of_true hinside).symm
        by_cases hblocks : blocks.isEmpty
        · rw [if_pos hblocks, if_pos hblocks, NoPanic.bind_iff, rebuild_safe]
          refine and_iff_left fun array harray => ?_
          have hlen : array.len = stored := rebuild_len hbuild harray
          exact NoPanic.bind (rowsAsked_safe (hlen ▸ hinside)) fun array _ => expand_safe
        · rw [if_neg hblocks, if_neg hblocks]
          by_cases hrows : blockRows = 0
          · rw [if_pos hrows]
            exact ⟨fun _ hsome => absurd hrows hsome, fun _ => NoPanic.fail _⟩
          · rw [if_neg hrows]
            by_cases hlen : len = 0
            · rw [if_pos hlen]
              exact ⟨fun _ _ hsome => absurd hlen hsome, fun _ => NoPanic.pure _⟩
            · rw [if_neg hlen, NoPanic.bind_iff, withCapacity_safe]
              refine Iff.trans ?_ (forall_prop_of_true hrows).symm
              refine Iff.trans ?_ (forall_prop_of_true hlen).symm
              refine and_congr_right fun hroom => ?_
              have hlast : start / blockRows ≤ (start + len - 1) / blockRows := Nat.div_le_div_right (by omega)
              have hjoin : ∀ {x : Outcome Error (List ArrayData)}, NoPanic (x >>= joinParts K) ↔ NoPanic x :=
                NoPanic.bind_iff.trans (and_iff_left fun parts _ => joinParts_safe)
              have hcapacity : withCapacity ((start + len - 1) / blockRows - start / blockRows + 1) = .ok () := if_pos hroom
              rw [hcapacity]
              refine Iff.trans ⟨fun h => h () rfl, fun h _ _ => h⟩ ?_
              rw [hjoin, NoPanic.mapM_iff, InTurn.range']
              refine forall_congr' fun index => imp_congr_right fun hfirst => ?_
              have hbound : index < start / blockRows + ((start + len - 1) / blockRows - start / blockRows + 1) ↔
                  index ≤ (start + len - 1) / blockRows := by omega
              rw [hbound]
              refine imp_congr_right fun hin => imp_congr_right fun _ => ?_
              refine decodeBlock_safe hbuild hwords (Nat.le_add_right _ _) ?_
              have hmul : index * blockRows ≤ (start + len - 1) / blockRows * blockRows := Nat.mul_le_mul_right _ hin
              exact (hmul.trans (Nat.div_mul_le_self _ _)).trans (Nat.sub_le _ _)
      · rw [if_pos (.inr (Nat.not_le.mp hinside))]
        exact ⟨fun _ hle => absurd hle hinside, fun _ => NoPanic.fail _⟩

theorem decodeBlock_safe (hbuild : K.BuildsLen) : ∀ {blocks : List ColumnChunk} {count : Nat} {type : DataType}
    {blockRows start stop index left : Nat}, stop < usizeLimit → start ≤ stop → index * blockRows ≤ stop →
    (NoPanic (decodeBlock K (segmentBytes bytes) blocks count type blockRows start stop index left) ↔
      BlockReadable K bytes blocks type blockRows start stop index left)
  | [], _, _, _, _, _, _, _, _, _, _ => by
      rw [decodeBlock, BlockReadable]
      exact ⟨fun _ => trivial, fun _ => NoPanic.fail _⟩
  | block :: blocks, _, _, _, _, _, _, 0, hstop, hle, hindex => by
      rw [decodeBlock, BlockReadable, NoPanic.bind_iff, blockOverlap_safe hstop hle hindex, and_assoc]
      refine and_congr_right fun hblock => and_congr_right fun hreach => ?_
      rw [blockOverlap_eq hstop hle hindex hblock hreach, ← decodeColumnRows_safe hbuild]
      exact ⟨fun h => h _ rfl, fun h range hrange => Except.ok.inj hrange ▸ h⟩
  | _ :: blocks, _, _, _, _, _, _, left + 1, hstop, hle, hindex => by
      rw [decodeBlock, BlockReadable]
      exact decodeBlock_safe hbuild hstop hle hindex

end

end Decode

section Reader

variable {K : Kit} {reader : SegmentReader} {found : SegmentMeta}

/-- The frame of the metadata lies inside the segment. -/
def SegmentReader.Framed (reader : SegmentReader) : Prop :=
  reader.metaOffset + reader.metaLen < usizeLimit ∧ reader.metaOffset + reader.metaLen ≤ reader.bytes.length

theorem segmentMeta_run (hfound : reader.segmentMeta K = .ok found) {α : Type} (f : SegmentMeta → Outcome Error α) :
    (reader.segmentMeta K >>= f) = f found := by
  rw [hfound]
  rfl

end Reader

section Pages

variable {rows : Nat}

/-- Ranges of the rows there are. -/
def Within (rows : Nat) (ranges : List (Nat × Nat)) : Prop := ∀ range ∈ ranges, range.1 + range.2 ≤ rows

theorem pageRange_within {pageRows page : Nat} {range : Nat × Nat} (h : LocalTables.pageRange pageRows rows page = some range) :
    range.1 + range.2 ≤ rows := by
  unfold LocalTables.pageRange at h
  split at h
  · cases h
  · split at h
    · obtain rfl := Option.some.inj h
      dsimp only
      omega
    · cases h

/-- A range is joined as it would be without bounds on the numbers, and stays among the rows. -/
theorem joinRange_eq (hrows : rows < usizeLimit) {ranges : List (Nat × Nat)} {range : Nat × Nat} (hranges : Within rows ranges)
    (hrange : range.1 + range.2 ≤ rows) :
    joinRange ranges range = .ok (LocalTables.joinRange ranges range) ∧ Within rows (LocalTables.joinRange ranges range) := by
  have happend : Within rows (ranges ++ [range]) := by
    intro other hother
    rcases List.mem_append.mp hother with hother | hother
    · exact hranges other hother
    · exact List.mem_singleton.mp hother ▸ hrange
  unfold joinRange LocalTables.joinRange
  cases hlast : ranges.getLast? with
  | none => exact ⟨rfl, happend⟩
  | some last =>
      have hend := hranges last (List.mem_of_getLast? hlast)
      dsimp only
      rw [add_eq (hend.trans_lt hrows)]
      by_cases hmeet : last.1 + last.2 = range.1
      · have hjoined : last.1 + (last.2 + range.2) ≤ rows := by omega
        have hfits : last.2 + range.2 < usizeLimit := by omega
        rw [if_pos hmeet]
        refine ⟨?_, fun other hother => ?_⟩
        · simp only [bind, Except.bind, if_pos hmeet, add_eq hfits]
          rfl
        · rcases List.mem_append.mp hother with hother | hother
          · exact hranges other (List.dropLast_subset _ hother)
          · exact List.mem_singleton.mp hother ▸ hjoined
      · rw [if_neg hmeet]
        refine ⟨?_, happend⟩
        simp only [bind, Except.bind, if_neg hmeet]
        rfl

/-- A range is cut as it would be without bounds on the numbers, where the end of its last block is a word. -/
theorem cutAtBlocks_eq {blockRows stop : Nat} (hblock : 0 < blockRows) (hstop : stop < usizeLimit) (left pos : Nat)
    (hlast : pos < stop → ((stop - 1) / blockRows + 1) * blockRows < usizeLimit) :
    cutAtBlocks blockRows pos stop left = .ok (LocalTables.splitAtBlocks.go blockRows pos stop left) ∧
      Within stop (LocalTables.splitAtBlocks.go blockRows pos stop left) := by
  induction left generalizing pos with
  | zero => exact ⟨rfl, fun _ hmem => absurd hmem List.not_mem_nil⟩
  | succ left ih =>
      rw [cutAtBlocks, LocalTables.splitAtBlocks.go]
      split
      · next hlt =>
          have hend := hlast hlt
          have hmono : (pos / blockRows + 1) * blockRows ≤ ((stop - 1) / blockRows + 1) * blockRows :=
            Nat.mul_le_mul_right _ (Nat.succ_le_succ (Nat.div_le_div_right (by omega)))
          have hbound : (pos / blockRows + 1) * blockRows < usizeLimit := hmono.trans_lt hend
          have hnumber : pos / blockRows + 1 < usizeLimit := (Nat.le_mul_of_pos_right _ hblock).trans_lt hbound
          have hpast : pos < (pos / blockRows + 1) * blockRows := by
            rw [Nat.mul_comm]
            exact Nat.lt_mul_div_succ pos hblock
          have hpiece : pos ≤ min stop ((pos / blockRows + 1) * blockRows) := le_min hlt.le hpast.le
          have hnext : pos + (min stop ((pos / blockRows + 1) * blockRows) - pos) ≤ stop := by omega
          obtain ⟨hcut, hwithin⟩ := ih (pos + (min stop ((pos / blockRows + 1) * blockRows) - pos)) fun _ => hend
          refine ⟨?_, fun piece hmem => ?_⟩
          · simp only [bind, Except.bind, add_eq hnumber, mul_eq hbound, sub_eq hpiece, add_eq (hnext.trans_lt hstop), hcut]
            rfl
          · rcases List.mem_cons.mp hmem with rfl | hmem
            · exact hnext
            · exact hwithin piece hmem
      · exact ⟨rfl, fun _ hmem => absurd hmem List.not_mem_nil⟩

theorem splitAtBlocks_eq (hrows : rows < usizeLimit) {blockRows : Nat} {ranges : List (Nat × Nat)} (hranges : Within rows ranges)
    (hlast : blockRows ≠ 0 → ∀ range ∈ ranges, range.2 ≠ 0 →
      ((range.1 + range.2 - 1) / blockRows + 1) * blockRows < usizeLimit) :
    splitAtBlocks ranges blockRows = .ok (LocalTables.splitAtBlocks ranges blockRows) ∧
      Within rows (LocalTables.splitAtBlocks ranges blockRows) := by
  unfold splitAtBlocks LocalTables.splitAtBlocks
  split
  · exact ⟨rfl, hranges⟩
  · next hblock =>
      have hone : ∀ range ∈ ranges, range.1 + range.2 < usizeLimit ∧
          cutAtBlocks blockRows range.1 (range.1 + range.2) range.2 =
            .ok (LocalTables.splitAtBlocks.go blockRows range.1 (range.1 + range.2) range.2) ∧
          Within (range.1 + range.2) (LocalTables.splitAtBlocks.go blockRows range.1 (range.1 + range.2) range.2) := by
        intro range hrange
        have hend := (hranges range hrange).trans_lt hrows
        exact ⟨hend, cutAtBlocks_eq (Nat.pos_of_ne_zero hblock) hend range.2 range.1 fun hlt =>
          hlast hblock range hrange (by omega)⟩
      have hpieces := mapM_eq_ok (f := fun range : Nat × Nat => do
        let stop ← Outcome.add usizeLimit range.1 range.2
        cutAtBlocks blockRows range.1 stop range.2)
        (g := fun range => LocalTables.splitAtBlocks.go blockRows range.1 (range.1 + range.2) range.2)
        fun range (hrange : range ∈ ranges) => by
          simp only [bind, Except.bind, add_eq (ε := Error) (hone range hrange).1, (hone range hrange).2.1]
      refine ⟨?_, fun piece hmem => ?_⟩
      · rw [hpieces]
        exact congrArg Except.ok (List.flatMap_def ..).symm
      · obtain ⟨range, hrange, hpiece⟩ := List.mem_flatMap.mp hmem
        exact ((hone range hrange).2.2 piece hpiece).trans (hranges range hrange)

variable {K : Kit} {reader : SegmentReader} {found : SegmentMeta}

theorem pageRange_eq (hfound : reader.segmentMeta K = .ok found) (hwords : found.rowCount < usizeLimit) (page : Nat) :
    reader.pageRange K page = .ok (LocalTables.pageRange found.pageRows found.rowCount page) := by
  unfold SegmentReader.pageRange LocalTables.pageRange
  rw [segmentMeta_run hfound]
  split
  · rfl
  · split
    · rfl
    · next hpast =>
        rw [if_neg fun hlt => hpast (hlt.trans hwords)]
        rfl

theorem keptRanges_eq (hfound : reader.segmentMeta K = .ok found) (hwords : found.rowCount < usizeLimit) (keep : List Bool) :
    reader.keptRanges K keep = .ok (LocalTables.keptRanges found.pageRows found.rowCount keep) ∧
      Within found.rowCount (LocalTables.keptRanges found.pageRows found.rowCount keep) := by
  unfold SegmentReader.keptRanges LocalTables.keptRanges
  generalize keep.zipIdx = pages
  have hnone : Within found.rowCount [] := fun _ h => nomatch h
  revert hnone
  generalize ([] : List (Nat × Nat)) = ranges
  intro hranges
  induction pages generalizing ranges with
  | nil => exact ⟨rfl, hranges⟩
  | cons entry pages ih =>
      rw [List.foldlM_cons, List.foldl_cons]
      obtain ⟨wanted, page⟩ := entry
      cases wanted with
      | false => exact ih ranges hranges
      | true =>
          dsimp only
          rw [if_pos rfl, if_pos rfl, pageRange_eq hfound hwords]
          cases hrange : LocalTables.pageRange found.pageRows found.rowCount page with
          | none => exact ih ranges hranges
          | some range =>
              obtain ⟨hjoin, hwithin⟩ := joinRange_eq hwords hranges (pageRange_within hrange)
              simp only [bind, Except.bind, hjoin]
              exact ih _ hwithin

/-- The ranges a page selection leaves. -/
def rangesAsked (found : SegmentMeta) (keep : Option (List Bool)) : List (Nat × Nat) :=
  match keep with
  | none => [(0, found.rowCount)]
  | some keep => LocalTables.keptRanges found.pageRows found.rowCount keep

theorem rangesFor_eq (hfound : reader.segmentMeta K = .ok found) (hwords : found.rowCount < usizeLimit)
    (keep : Option (List Bool)) :
    reader.rangesFor K found.rowCount keep = .ok (rangesAsked found keep) ∧ Within found.rowCount (rangesAsked found keep) := by
  cases keep with
  | none =>
      refine ⟨rfl, fun range hrange => ?_⟩
      obtain rfl := List.mem_singleton.mp hrange
      exact (Nat.zero_add _).le
  | some keep => exact keptRanges_eq hfound hwords keep

/-- A buffer past the last word is not asked for where one before it is past the segment. -/
example : (decodeColumnRows emptyArchive (segmentBytes [])
    ⟨.plain, .none, 1, 0, 0, 0, 0, [⟨.data, ⟨1, 0⟩, 0, 0⟩, ⟨.data, ⟨2 ^ 64 - 1, 2⟩, 0, 0⟩], [], unknownZone, 0, []⟩
    (.leaf .int8) 0 1).isOk = false := by decide +kernel

end Pages

end Segment

end LocalTables
