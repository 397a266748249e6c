import LocalTables.Columnar.Building
import LocalTables.Columnar.Layout

/-! What reading a segment fetches, and what a backend that fetches ahead plans for it (`projected_extents`). -/

namespace LocalTables

namespace Segment

open Outcome

/-- A source that lacks one buffer. -/
def withhold (source : BufferSource) (extent : Extent) : BufferSource := fun wanted =>
  if wanted = extent then .fail (.corrupt "a buffer is withheld") else source wanted

namespace SegmentReader

variable (K : Kit) (reader : SegmentReader)

/-- `read`, from a source of stored buffers. -/
def readFrom (source : BufferSource) (projection : Option (List Nat)) : Outcome Error RecordBatch := do
  let rows ← reader.rowCount K
  reader.readRowsFrom K source projection 0 rows

/-- Reading fetches an extent: there are bytes in it, and without them the read fails. -/
def Fetches (projection : Option (List Nat)) (extent : Extent) : Prop :=
  extent.isEmpty = false ∧ ∀ batch, reader.readFrom K (withhold (segmentBytes reader.bytes) extent) projection ≠ .ok batch

/-- There is a plan for the projection, inside the segment, and it has all that reading fetches. -/
def Plans (projection : Option (List Nat)) : Prop :=
  ∃ plan, reader.projectedExtents K projection = .ok plan ∧ (∀ extent, reader.Fetches K projection extent → extent ∈ plan) ∧
    ∀ extent ∈ plan, extent.stop ≤ reader.bytes.length

end SegmentReader

section Agree

/-- Two sources have the same to say of some buffers. -/
def Agree (source source' : BufferSource) (specs : List BufferSpec) : Prop :=
  ∀ spec ∈ specs, source spec.extent = source' spec.extent

variable {K : Kit} {source source' : BufferSource}

theorem Agree.mono {specs specs' : List BufferSpec} (h : Agree source source' specs) (hsub : specs' ⊆ specs) :
    Agree source source' specs' := fun spec hspec => h spec (hsub hspec)

theorem load_congr {spec : BufferSpec} {codec : Codec} (h : source spec.extent = source' spec.extent) :
    load K source spec codec = load K source' spec codec := by
  unfold load
  rw [h]

theorem decodeNulls_congr {buffers : List BufferSpec} {codec : Codec} {len : Nat} (h : Agree source source' buffers) :
    decodeNulls K source buffers codec len = decodeNulls K source' buffers codec len := by
  unfold decodeNulls
  cases hfind : buffers.find? fun spec => spec.role == .validity with
  | none => rfl
  | some spec =>
      dsimp only
      rw [load_congr (h spec (List.mem_of_find?_eq_some hfind))]

theorem mapM_load_congr {specs : List BufferSpec} {codec : Codec} (h : Agree source source' specs) :
    (specs.mapM fun spec => load K source spec codec) = specs.mapM fun spec => load K source' spec codec := by
  induction specs with
  | nil => rfl
  | cons spec specs ih =>
      rw [List.mapM_cons, List.mapM_cons, load_congr (h spec List.mem_cons_self), ih (h.mono (List.subset_cons_self _ _))]

mutual

/-- An array is rebuilt from nothing but the buffers of its chunk. -/
theorem rebuild_congr : ∀ (chunk : ColumnChunk) (type : DataType), Agree source source' chunk.specs →
    rebuild K source chunk type = rebuild K source' chunk type
  | ⟨_, _, _, _, _, _, _, buffers, children, _, _, blocks⟩, type, h => by
      rw [ColumnChunk.specs] at h
      have hbuffers : Agree source source' buffers := h.mono fun spec hspec => by simp [hspec]
      have hchildren : Agree source source' (ColumnChunk.specsOf children) := h.mono fun spec hspec => by simp [hspec]
      rw [rebuild, rebuild, decodeNulls_congr hbuffers, mapM_load_congr (hbuffers.mono List.filter_sublist.subset),
        rebuildChildren_congr children type.childDataTypes hchildren]

theorem rebuildChildren_congr : ∀ (chunks : List ColumnChunk) (types : List DataType),
    Agree source source' (ColumnChunk.specsOf chunks) → rebuildChildren K source chunks types = rebuildChildren K source' chunks types
  | chunk :: chunks, type :: types, h => by
      rw [ColumnChunk.specsOf] at h
      rw [rebuildChildren, rebuildChildren, rebuild_congr chunk type (h.mono (List.subset_append_left _ _)),
        rebuildChildren_congr chunks types (h.mono (List.subset_append_right _ _))]
  | [], _, _ => by simp [rebuildChildren]
  | _ :: _, [], _ => by simp [rebuildChildren]

end

mutual

/-- Rows are decoded from nothing but the buffers of their chunk and of its blocks. -/
theorem decodeColumnRows_congr : ∀ (chunk : ColumnChunk) (type : DataType) (start len : Nat), Agree source source' chunk.specs →
    decodeColumnRows K source chunk type start len = decodeColumnRows K source' chunk type start len
  | ⟨encoding, codec, stored, nullCount, dictLen, runCount, offset, buffers, children, zone, blockRows, blocks⟩, type, start, len,
      h => by
      have hblocks : Agree source source' (ColumnChunk.specsOf blocks) := by
        rw [ColumnChunk.specs] at h
        exact h.mono (List.subset_append_left _ _)
      have hblock : ∀ stop, (fun index => decodeBlock K source blocks blocks.length type blockRows start stop index index) =
          fun index => decodeBlock K source' blocks blocks.length type blockRows start stop index index := by
        intro stop
        funext index
        exact decodeBlock_congr blocks blocks.length type blockRows start stop index index hblocks
      rw [decodeColumnRows, decodeColumnRows, rebuild_congr _ _ h]
      congr 1
      funext stop
      rw [hblock stop]

theorem decodeBlock_congr : ∀ (blocks : List ColumnChunk) (count : Nat) (type : DataType) (blockRows start stop index left : Nat),
    Agree source source' (ColumnChunk.specsOf blocks) →
    decodeBlock K source blocks count type blockRows start stop index left =
      decodeBlock K source' blocks count type blockRows start stop index left
  | [], count, type, blockRows, start, stop, index, left, _ => by rw [decodeBlock, decodeBlock]
  | block :: blocks, count, type, blockRows, start, stop, index, 0, h => by
      rw [ColumnChunk.specsOf] at h
      rw [decodeBlock, decodeBlock]
      congr 1
      funext range
      exact decodeColumnRows_congr block type range.1 range.2 (h.mono (List.subset_append_left _ _))
  | block :: blocks, count, type, blockRows, start, stop, index, left + 1, h => by
      rw [ColumnChunk.specsOf] at h
      rw [decodeBlock, decodeBlock]
      exact decodeBlock_congr blocks count type blockRows start stop index left (h.mono (List.subset_append_right _ _))

end

end Agree

section Rows

variable {K : Kit} {source : BufferSource} {array : ArrayData}

/-- The buffers of an array on its own: a bitmap or none, and then its data. -/
def RowRoles (roles : List BufferRole) : Prop :=
  ∃ data, (roles = data ∨ roles = .validity :: data) ∧ ∀ role ∈ data, role = .data

mutual

/-- An encoded column has the buffers of an array on its own. -/
def EncodedColumn.Rowed : EncodedColumn → Prop
  | ⟨_, _, _, _, _, _, _, buffers, children⟩ => RowRoles (buffers.map Prod.fst) ∧ AllRowed children

def AllRowed : List EncodedColumn → Prop
  | [] => True
  | child :: children => child.Rowed ∧ AllRowed children

end

mutual

/-- A chunk in one piece, with nothing beside its rows. -/
def ColumnChunk.Bare : ColumnChunk → Prop
  | ⟨_, _, _, _, _, _, _, buffers, children, _, _, blocks⟩ =>
      blocks = [] ∧ RowRoles (buffers.map BufferSpec.role) ∧ AllBare children

def AllBare : List ColumnChunk → Prop
  | [] => True
  | chunk :: chunks => chunk.Bare ∧ AllBare chunks

end

theorem rowRoles_stored (array : ArrayData) :
    RowRoles ((validity array ++ array.buffers.map fun buffer => (BufferRole.data, buffer)).map Prod.fst) := by
  have hdata : ∀ role ∈ (array.buffers.map fun buffer => (BufferRole.data, buffer)).map Prod.fst, role = .data := by
    intro role hrole
    rw [List.map_map] at hrole
    obtain ⟨buffer, -, rfl⟩ := List.mem_map.mp hrole
    rfl
  refine ⟨_, ?_, hdata⟩
  rw [List.map_append]
  unfold validity
  split
  · split
    · exact .inr rfl
    · exact .inl rfl
  · exact .inl rfl

theorem allRowed_of_forall₂ {α : Type} {R : α → EncodedColumn → Prop} {arrays : List α} {children : List EncodedColumn}
    (h : List.Forall₂ R arrays children) (hone : ∀ array child, R array child → child.Rowed) : AllRowed children := by
  induction h with
  | nil => trivial
  | cons hchild _ ih => exact ⟨hone _ _ hchild, ih⟩

/-- What an array is encoded as has its buffers, whatever else is said of it. -/
theorem encodePlainTo_rowed (depth : Nat) : ∀ {array : ArrayData} {zone : ZoneMap} {encoded other : EncodedColumn},
    encodePlainTo K depth array zone = .ok encoded → SameStored encoded other → other.Rowed := by
  induction depth with
  | zero =>
      intro array zone encoded other h
      cases h
  | succ depth ih =>
      intro array zone encoded other h hsame
      obtain ⟨children, hchildren, rfl⟩ := encodePlainTo_ok h
      have hall := allRowed_of_forall₂ (mapM_ok hchildren) fun child column hcolumn => ih hcolumn ⟨rfl, rfl, rfl, rfl⟩
      obtain ⟨-, -, hbuffers, hbelow⟩ := hsame
      cases other
      dsimp only at hbuffers hbelow
      rw [EncodedColumn.Rowed, hbuffers, hbelow]
      exact ⟨rowRoles_stored _, hall⟩

theorem Encodes.rowed {encoded : EncodedColumn} (h : Encodes K array encoded) : encoded.Rowed := by
  cases h with
  | plain zone hencoding h => exact encodePlainTo_rowed _ h ⟨rfl, rfl, rfl, rfl⟩
  | recast cast zone column hencoding hworth hcast h hsame => exact encodePlainTo_rowed _ h hsame

theorem compressBuffers_roles {codec : Codec} {buffers : List (BufferRole × Bytes)} {stored : List (BufferRole × StoredBuffer)}
    (h : compressBuffers K codec buffers = .ok stored) : stored.map Prod.fst = buffers.map Prod.fst := by
  refine mapM_map h fun buffer stored hstored => ?_
  obtain ⟨packed, -, hstored⟩ := bind_eq_ok.mp hstored
  rw [← Except.ok.inj hstored]

mutual

/-- An array on its own is written as one. -/
theorem writeChunk_bare {codec : Codec} : ∀ {encoded : EncodedColumn} {bytes bytes' : Bytes} {chunk : ColumnChunk},
    encoded.Rowed → writeChunk K codec [] encoded bytes = .ok (bytes', chunk) → chunk.Bare
  | ⟨_, _, _, _, _, _, _, buffers, children⟩, bytes, bytes', chunk, hrowed, h => by
      obtain ⟨stored, middle, specs, chunks, hstored, hplaced, hchildren, rfl⟩ := writeChunk_ok h
      obtain ⟨new, rfl, -, hall, -⟩ := foldl_place hplaced
      rw [EncodedColumn.Rowed] at hrowed
      refine ⟨rfl, ?_, writeChildren_bare hrowed.2 hchildren⟩
      rw [placed_roles hall, List.append_nil, compressBuffers_roles hstored]
      exact hrowed.1

theorem writeChildren_bare {codec : Codec} : ∀ {children : List EncodedColumn} {bytes bytes' : Bytes} {chunks : List ColumnChunk},
    AllRowed children → writeChildren K codec children bytes = .ok (bytes', chunks) → AllBare chunks
  | [], bytes, bytes', chunks, _, h => by
      rw [writeChildren] at h
      obtain ⟨rfl, rfl⟩ := Prod.mk.inj (Except.ok.inj h)
      trivial
  | child :: children, bytes, bytes', chunks, hrowed, h => by
      rw [writeChildren] at h
      obtain ⟨⟨middle, chunk⟩, hchunk, h⟩ := bind_eq_ok.mp h
      obtain ⟨⟨final, rest⟩, hrest, h⟩ := bind_eq_ok.mp h
      obtain ⟨rfl, rfl⟩ := Prod.mk.inj (Except.ok.inj h)
      rw [AllRowed] at hrowed
      exact ⟨writeChunk_bare hrowed.1 hchunk, writeChildren_bare hrowed.2 hrest⟩

end

theorem load_ok {spec : BufferSpec} {codec : Codec} {bytes : Bytes} (h : load K source spec codec = .ok bytes) :
    ∃ stored, source spec.extent = .ok stored := by
  obtain ⟨stored, hstored, -⟩ := bind_eq_ok.mp h
  exact ⟨stored, hstored⟩

/-- The buffers of an array on its own are its bitmap and its data. -/
theorem mem_of_rowRoles {buffers : List BufferSpec} (h : RowRoles (buffers.map BufferSpec.role)) {spec : BufferSpec}
    (hspec : spec ∈ buffers) :
    (buffers.find? fun spec => spec.role == .validity) = some spec ∨ spec ∈ buffers.filter fun spec => spec.role == .data := by
  obtain ⟨data, hroles | hroles, hdata⟩ := h
  · have hrole : spec.role = .data := hdata _ (hroles ▸ List.mem_map_of_mem hspec)
    exact .inr (List.mem_filter.mpr ⟨hspec, by rw [hrole]; rfl⟩)
  · cases buffers with
    | nil => cases hspec
    | cons first buffers =>
        obtain ⟨hfirst, hrest⟩ := List.cons.inj hroles
        rcases List.mem_cons.mp hspec with rfl | hmem
        · exact .inl (List.find?_cons_of_pos (by rw [hfirst]; rfl))
        · have hrole : spec.role = .data := hdata _ (hrest ▸ List.mem_map_of_mem hmem)
          exact .inr (List.mem_filter.mpr ⟨hspec, by rw [hrole]; rfl⟩)

mutual

/-- An array that was rebuilt from a chunk was rebuilt from all of its buffers. -/
theorem rebuild_loads : ∀ {chunk : ColumnChunk} {type : DataType} {built : ArrayData}, chunk.Bare →
    rebuild K source chunk type = .ok built → ∀ spec ∈ chunk.specs, ∃ bytes, source spec.extent = .ok bytes
  | ⟨_, _, _, _, _, _, _, buffers, children, _, _, blocks⟩, type, built, hbare, h, spec, hspec => by
      rw [ColumnChunk.Bare] at hbare
      obtain ⟨rfl, hroles, hbelow⟩ := hbare
      rw [ColumnChunk.specs, ColumnChunk.specsOf, List.nil_append] at hspec
      rw [rebuild] at h
      obtain ⟨nulls, hnulls, h⟩ := bind_eq_ok.mp h
      obtain ⟨data, hdata, h⟩ := bind_eq_ok.mp h
      split at h
      · cases h
      · next hcount =>
          obtain ⟨below, hchildren, -⟩ := bind_eq_ok.mp h
          rcases List.mem_append.mp hspec with hspec | hspec
          · rcases mem_of_rowRoles hroles hspec with hfind | hmem
            · unfold decodeNulls at hnulls
              rw [hfind] at hnulls
              obtain ⟨bytes, hload, -⟩ := bind_eq_ok.mp hnulls
              exact load_ok hload
            · obtain ⟨bytes, -, hload⟩ := mapM_exists hdata hmem
              exact load_ok hload
          · exact rebuildChildren_loads (not_not.mp hcount) hbelow hchildren spec hspec

theorem rebuildChildren_loads : ∀ {chunks : List ColumnChunk} {types : List DataType} {built : List ArrayData},
    chunks.length = types.length → AllBare chunks → rebuildChildren K source chunks types = .ok built →
    ∀ spec ∈ ColumnChunk.specsOf chunks, ∃ bytes, source spec.extent = .ok bytes
  | [], _, _, _, _, _, spec, hspec => by
      rw [ColumnChunk.specsOf] at hspec
      cases hspec
  | _ :: _, [], _, hcount, _, _, _, _ => by cases hcount
  | chunk :: chunks, type :: types, built, hcount, hbare, h, spec, hspec => by
      rw [AllBare] at hbare
      rw [rebuildChildren] at h
      obtain ⟨first, hfirst, h⟩ := bind_eq_ok.mp h
      obtain ⟨rest, hrest, -⟩ := bind_eq_ok.mp h
      rw [ColumnChunk.specsOf] at hspec
      rcases List.mem_append.mp hspec with hspec | hspec
      · exact rebuild_loads hbare.1 hfirst spec hspec
      · exact rebuildChildren_loads (Nat.succ.inj hcount) hbare.2 hrest spec hspec

end

end Rows

section Cut

variable {K : Kit} {source : BufferSource} {chunk : ColumnChunk} {type : DataType}

/-- The buffers a plan knows of: those of a chunk and of the chunks below it, not those of its blocks. -/
def ColumnChunk.own (chunk : ColumnChunk) : List BufferSpec := chunk.buffers ++ ColumnChunk.specsOf chunk.children

theorem ColumnChunk.specs_eq (chunk : ColumnChunk) : chunk.specs = ColumnChunk.specsOf chunk.blocks ++ chunk.own := by
  cases chunk
  rw [ColumnChunk.specs]
  rfl

theorem ColumnChunk.specsOf_eq (chunks : List ColumnChunk) : ColumnChunk.specsOf chunks = chunks.flatMap ColumnChunk.specs := by
  induction chunks with
  | nil => rfl
  | cons chunk chunks ih => rw [ColumnChunk.specsOf, ih, List.flatMap_cons]

/-- The blocks of a column, each with rows of it and nothing beside them. -/
def ColumnChunk.CutBare (chunk : ColumnChunk) : Prop :=
  ∀ index block, chunk.blocks[index]? = some block → index * chunk.blockRows < chunk.len ∧ block.Bare

theorem decodeColumnRows_rebuilds {start len : Nat} {part : ArrayData} (hblocks : chunk.blocks = [])
    (h : decodeColumnRows K source chunk type start len = .ok part) :
    ∃ built, rebuild K source chunk (storedType type chunk.encoding) = .ok built := by
  cases chunk
  dsimp only at hblocks
  subst hblocks
  rw [decodeColumnRows] at h
  obtain ⟨stop, -, h⟩ := bind_eq_ok.mp h
  split at h
  · cases h
  · rw [if_pos List.isEmpty_nil] at h
    obtain ⟨built, hbuilt, -⟩ := bind_eq_ok.mp h
    exact ⟨built, hbuilt⟩

/-- Decoding all rows of a column loads every buffer of its blocks. -/
theorem decodeColumnRows_loads {part : ArrayData} (hcut : chunk.CutBare)
    (h : decodeColumnRows K source chunk type 0 chunk.len = .ok part) :
    ∀ spec ∈ ColumnChunk.specsOf chunk.blocks, ∃ bytes, source spec.extent = .ok bytes := by
  intro spec hspec
  rw [ColumnChunk.specsOf_eq] at hspec
  obtain ⟨block, hblock, hin⟩ := List.mem_flatMap.mp hspec
  obtain ⟨index, hindex⟩ := List.getElem?_of_mem hblock
  obtain ⟨hrows, hbare⟩ := hcut index block hindex
  obtain ⟨encoding, codec, stored, nullCount, dictLen, runCount, offset, buffers, children, zone, blockRows, blocks⟩ := chunk
  dsimp only at hindex hrows h
  rw [decodeColumnRows] at h
  obtain ⟨stop, hstop, h⟩ := bind_eq_ok.mp h
  obtain ⟨-, rfl⟩ := add_eq_ok.mp hstop
  rw [Nat.zero_add] at h
  split at h
  · cases h
  · have hsome : ¬blocks.isEmpty = true := by
      rw [List.isEmpty_iff]
      rintro rfl
      cases hindex
    rw [if_neg hsome] at h
    split at h
    · cases h
    · next hblockRows =>
        rw [if_neg (Nat.ne_of_gt (Nat.zero_lt_of_lt hrows))] at h
        obtain ⟨_, -, h⟩ := bind_eq_ok.mp h
        obtain ⟨parts, hparts, -⟩ := bind_eq_ok.mp h
        have hlast : index ≤ (stored - 1) / blockRows :=
          (Nat.le_div_iff_mul_le (Nat.pos_of_ne_zero hblockRows)).mpr (Nat.le_sub_one_of_lt hrows)
        have hmem : index ∈ List.range' (0 / blockRows) ((stored - 1) / blockRows - 0 / blockRows + 1) := by
          rw [Nat.zero_div, List.mem_range'_1]
          omega
        obtain ⟨piece, -, hpiece⟩ := mapM_exists hparts hmem
        rw [decodeBlock_eq hindex] at hpiece
        obtain ⟨range, -, hpiece⟩ := bind_eq_ok.mp hpiece
        have hwhole : block.blocks = [] := by
          cases block
          rw [ColumnChunk.Bare] at hbare
          exact hbare.1
        obtain ⟨built, hbuilt⟩ := decodeColumnRows_rebuilds hwhole hpiece
        exact rebuild_loads hbare hbuilt spec hin

mutual

/-- A plan knows of every buffer of a chunk written in one piece. -/
theorem writeChunk_extents {codec : Codec} : ∀ {encoded : EncodedColumn} {side : List (BufferRole × StoredBuffer)}
    {bytes bytes' : Bytes} {chunk : ColumnChunk}, writeChunk K codec side encoded bytes = .ok (bytes', chunk) →
    chunk.extents = chunk.specs.map BufferSpec.extent
  | ⟨_, _, _, _, _, _, _, _, children⟩, side, bytes, bytes', chunk, h => by
      obtain ⟨stored, middle, specs, chunks, -, -, hchildren, rfl⟩ := writeChunk_ok h
      rw [ColumnChunk.extents, ColumnChunk.specs, ColumnChunk.specsOf, List.nil_append, List.map_append,
        writeChildren_extents hchildren]

theorem writeChildren_extents {codec : Codec} : ∀ {children : List EncodedColumn} {bytes bytes' : Bytes}
    {chunks : List ColumnChunk}, writeChildren K codec children bytes = .ok (bytes', chunks) →
    ColumnChunk.childExtents chunks = (ColumnChunk.specsOf chunks).map BufferSpec.extent
  | [], bytes, bytes', chunks, h => by
      rw [writeChildren] at h
      obtain ⟨rfl, rfl⟩ := Prod.mk.inj (Except.ok.inj h)
      rfl
  | child :: children, bytes, bytes', chunks, h => by
      rw [writeChildren] at h
      obtain ⟨⟨middle, chunk⟩, hchunk, h⟩ := bind_eq_ok.mp h
      obtain ⟨⟨final, rest⟩, hrest, h⟩ := bind_eq_ok.mp h
      obtain ⟨rfl, rfl⟩ := Prod.mk.inj (Except.ok.inj h)
      rw [ColumnChunk.childExtents, ColumnChunk.specsOf, List.map_append, writeChunk_extents hchunk, writeChildren_extents hrest]

end

theorem blockRanges_lt {blockRows rows index : Nat} (hblock : 0 < blockRows) {range : Nat × Nat}
    (h : (blockRanges blockRows rows 0 rows)[index]? = some range) : index * blockRows < rows := by
  rw [blockRanges_getElem? hblock rows (Nat.sub_zero rows).le, Nat.zero_add] at h
  split at h
  · next hlt => exact hlt
  · cases h

/-- What is written of a column: blocks on their own, and beside them what a plan knows of. -/
theorem writeColumn_cut {array : ArrayData} {field : Field DataType} {options : Options} {bytes bytes' : Bytes}
    (h : writeColumn K array field options bytes = .ok (bytes', chunk)) :
    chunk.CutBare ∧ chunk.extents = chunk.own.map BufferSpec.extent := by
  obtain ⟨encoded, side, hencoded, -, hwritten⟩ := writeColumn_ok h
  unfold columnEncoding at hencoded
  by_cases hwanted : blocksWanted array (options.compression.codecFor field.dataType) options = true
  · rw [if_pos hwanted] at hencoded
    obtain rfl := Except.ok.inj hencoded
    have hpos : 0 < options.compressionBlockRows := by
      simp only [blocksWanted, Bool.and_eq_true, decide_eq_true_eq] at hwanted
      exact hwanted.1.1
    obtain ⟨middle, blocks, outer, hblocks, houter, rfl⟩ := writeBlockedChunk_ok hwanted hwritten
    obtain ⟨new, rfl, -, hall, -⟩ := foldlM_writeBlock hblocks
    constructor
    · intro index block hblock
      obtain ⟨range, hrange, piece, before, after, hpiece, hone, -⟩ := forall₂_getElem? hall hblock
      refine ⟨?_, writeChunk_bare (encodeColumn_encodes hpiece).rowed hone⟩
      dsimp only
      rw [writeChunk_len houter]
      exact blockRanges_lt hpos hrange
    · have hextents := writeChunk_extents houter
      obtain ⟨_, _, _, _, -, -, -, rfl⟩ := writeChunk_ok houter
      exact hextents
  · unfold writeBlockedChunk at hwritten
    rw [if_pos hwanted] at hwritten
    have hextents := writeChunk_extents hwritten
    obtain ⟨_, _, _, _, -, -, -, rfl⟩ := writeChunk_ok hwritten
    exact ⟨fun index block hblock => (by cases hblock), hextents⟩

end Cut

section Built

variable {ν : Type} {K : Kit} {M : Meaning ν} {schema readSchema : Schema DataType} {batches : List RecordBatch}
  {options : Options} {segmentId fingerprint : Nat} {built : BuiltSegment} {reader : SegmentReader} {found : SegmentMeta}
  {projection : Option (List Nat)}

/-- Nothing that a plan knows of lies where a block has bytes. -/
theorem own_apart {columns : List ColumnChunk}
    (h : (ColumnChunk.specsOf columns).Pairwise fun first second => first.extent.stop ≤ second.extent.offset) :
    ∀ ⦃chunk⦄, chunk ∈ columns → ∀ ⦃other⦄, other ∈ columns → ∀ spec ∈ ColumnChunk.specsOf chunk.blocks, ∀ known ∈ other.own,
      spec.extent = known.extent → spec.extent.len = 0 := by
  rw [ColumnChunk.specsOf_eq, List.pairwise_flatMap] at h
  have hempty : ∀ extent : Extent, extent.stop ≤ extent.offset → extent.len = 0 := by
    intro extent hstop
    rw [Extent.stop] at hstop
    omega
  have hblocks : ∀ chunk : ColumnChunk, ∀ spec ∈ ColumnChunk.specsOf chunk.blocks, spec ∈ chunk.specs := by
    intro chunk spec hspec
    rw [ColumnChunk.specs_eq]
    exact List.mem_append_left _ hspec
  have hown : ∀ chunk : ColumnChunk, ∀ spec ∈ chunk.own, spec ∈ chunk.specs := by
    intro chunk spec hspec
    rw [ColumnChunk.specs_eq]
    exact List.mem_append_right _ hspec
  apply List.Pairwise.forall_of_forall_of_flip
  · intro chunk hchunk spec hspec known hknown heq
    have hordered := h.1 chunk hchunk
    rw [ColumnChunk.specs_eq, List.pairwise_append] at hordered
    have hbefore := hordered.2.2 spec hspec known hknown
    exact hempty _ (heq ▸ hbefore)
  · refine h.2.imp fun hbefore spec hspec known hknown heq => ?_
    have hstop := hbefore spec (hblocks _ spec hspec) known (hown _ known hknown)
    exact hempty _ (heq ▸ hstop)
  · refine h.2.imp fun hbefore spec hspec known hknown heq => ?_
    have hstop := hbefore known (hown _ known hknown) spec (hblocks _ spec hspec)
    exact hempty _ (heq ▸ hstop)

/-- The buffers of the columns of a segment, and what their blocks are. -/
theorem built_columns (h : buildSegment K segmentId schema fingerprint batches options = .ok built) :
    Laid 0 built.bytes.length (ColumnChunk.specsOf built.segmentMeta.columns) ∧
      ∀ chunk ∈ built.segmentMeta.columns, chunk.CutBare ∧ chunk.extents = chunk.own.map BufferSpec.extent := by
  obtain ⟨columns, bytes, payload, -, hwritten, -, -, -, -, hall, -⟩ := buildSegment_ok h
  have hlaid := writeColumns_laid hwritten
  have hstarts : bytes <+: built.bytes := by
    rw [hall]
    exact (padToAlignment_starts bytes).trans (List.prefix_append _ _)
  refine ⟨⟨hlaid.ordered, fun spec hspec => ?_, hlaid.aligned⟩, fun chunk hchunk => ?_⟩
  · exact ⟨(hlaid.within spec hspec).1, (hlaid.within spec hspec).2.trans hstarts.length_le⟩
  · obtain ⟨index, hindex⟩ := List.getElem?_of_mem hchunk
    obtain ⟨column, -, before, after, hone, -⟩ := forall₂_getElem? (writeColumns_ok hwritten).2.1 hindex
    exact writeColumn_cut hone

/-- What a plan has of one column. -/
def plannedOf (found : SegmentMeta) (index : Nat) : Outcome Error (List Extent) :=
  match found.columns[index]? with
  | some chunk => return chunk.extents
  | none => .fail (.invalidArgument s!"column {index} is out of range")

theorem plannedOf_ok {index : Nat} {extents : List Extent} :
    plannedOf found index = .ok extents ↔ ∃ chunk, found.columns[index]? = some chunk ∧ extents = chunk.extents := by
  unfold plannedOf
  cases found.columns[index]? with
  | none => exact ⟨(nomatch ·), fun ⟨_, h, _⟩ => nomatch h⟩
  | some chunk => exact ⟨fun h => ⟨chunk, rfl, (Except.ok.inj h).symm⟩, fun ⟨_, h, h'⟩ => by rw [h', ← Option.some.inj h]; rfl⟩

/-- The columns a plan is asked for. -/
def asked (found : SegmentMeta) (projection : Option (List Nat)) : List Nat := projection.getD (List.range found.columns.length)

theorem projectedExtents_eq (hmeta : reader.segmentMeta K = .ok found) : reader.projectedExtents K projection = (do
    let extents ← (asked found projection).mapM (plannedOf found)
    return extents.flatten) := by
  unfold SegmentReader.projectedExtents
  rw [hmeta]
  rfl

/-- A plan is of columns that are stored, and has what lies in them. -/
theorem projectedExtents_ok (hmeta : reader.segmentMeta K = .ok found) {plan : List Extent}
    (h : reader.projectedExtents K projection = .ok plan) :
    (∀ index ∈ asked found projection, index < found.columns.length) ∧
      ∀ extent, extent ∈ plan ↔ ∃ index ∈ asked found projection, ∃ chunk, found.columns[index]? = some chunk ∧ extent ∈ chunk.extents := by
  rw [projectedExtents_eq hmeta] at h
  obtain ⟨extents, hextents, h⟩ := bind_eq_ok.mp h
  obtain rfl := Except.ok.inj h
  constructor
  · intro index hindex
    obtain ⟨_, -, hone⟩ := mapM_exists hextents hindex
    obtain ⟨chunk, hchunk, -⟩ := plannedOf_ok.mp hone
    exact (List.getElem?_eq_some_iff.mp hchunk).1
  · intro extent
    rw [List.mem_flatten]
    constructor
    · rintro ⟨planned, hplanned, hextent⟩
      obtain ⟨index, hindex, hone⟩ := mapM_mem hextents hplanned
      obtain ⟨chunk, hchunk, rfl⟩ := plannedOf_ok.mp hone
      exact ⟨index, hindex, chunk, hchunk, hextent⟩
    · rintro ⟨index, hindex, chunk, hchunk, hextent⟩
      obtain ⟨planned, hplanned, hone⟩ := mapM_exists hextents hindex
      obtain ⟨chunk', hchunk', rfl⟩ := plannedOf_ok.mp hone
      obtain rfl := Option.some.inj (hchunk.symm.trans hchunk')
      exact ⟨_, hplanned, hextent⟩

theorem projectedExtents_total (hmeta : reader.segmentMeta K = .ok found)
    (h : ∀ index ∈ asked found projection, index < found.columns.length) :
    ∃ plan, reader.projectedExtents K projection = .ok plan := by
  obtain ⟨extents, hextents⟩ := mapM_total fun index hindex =>
    ⟨_, plannedOf_ok.mpr ⟨_, List.getElem?_eq_getElem (h index hindex), rfl⟩⟩
  rw [projectedExtents_eq hmeta, hextents]
  exact ⟨_, rfl⟩

theorem readFrom_eq {source : BufferSource} (hmeta : reader.segmentMeta K = .ok found) :
    reader.readFrom K source projection = (do
      let fields ← ofExcept ((reader.indices projection).mapM reader.projectedField)
      let columns ← ((reader.indices projection).zip fields).mapM fun entry =>
        SegmentReader.columnFrom K source found entry.2 entry.1 0 found.rowCount
      ofExcept (RecordBatch.tryNew ⟨fields, []⟩ columns (if columns.isEmpty then some found.rowCount else none))) := by
  unfold SegmentReader.readFrom SegmentReader.rowCount SegmentReader.readRowsFrom
  rw [hmeta]
  rfl

theorem readFrom_columns {source : BufferSource} {batch : RecordBatch} (hmeta : reader.segmentMeta K = .ok found)
    (h : reader.readFrom K source projection = .ok batch) {index : Nat} (hindex : index ∈ reader.indices projection) :
    ∃ field part, SegmentReader.columnFrom K source found field index 0 found.rowCount = .ok part := by
  rw [readFrom_eq hmeta] at h
  obtain ⟨fields, hfields, h⟩ := bind_eq_ok.mp h
  obtain ⟨columns, hcolumns, -⟩ := bind_eq_ok.mp h
  obtain ⟨place, hplace⟩ := List.getElem?_of_mem hindex
  obtain ⟨field, hfield, -⟩ := forall₂_getElem?_left (mapM_ok (ofExcept_eq_ok.mp hfields)) hplace
  have hentry : (index, field) ∈ (reader.indices projection).zip fields :=
    List.mem_of_getElem? (List.getElem?_zip_eq_some.mpr ⟨hplace, hfield⟩)
  obtain ⟨part, -, hpart⟩ := mapM_exists hcolumns hentry
  exact ⟨field, part, hpart⟩

/-- Reading is the same from sources that agree on the projected columns. -/
theorem readFrom_congr {source source' : BufferSource} (hmeta : reader.segmentMeta K = .ok found)
    (h : ∀ index ∈ reader.indices projection, ∀ chunk, found.columns[index]? = some chunk → Agree source source' chunk.specs) :
    reader.readFrom K source projection = reader.readFrom K source' projection := by
  have hone : ∀ index ∈ reader.indices projection, ∀ field,
      SegmentReader.columnFrom K source found field index 0 found.rowCount =
        SegmentReader.columnFrom K source' found field index 0 found.rowCount := by
    intro index hindex field
    unfold SegmentReader.columnFrom
    cases hchunk : found.columns[index]? with
    | none => rfl
    | some chunk => exact decodeColumnRows_congr chunk field.dataType 0 found.rowCount (h index hindex chunk hchunk)
  have hall : ∀ fields : List (Field DataType),
      (((reader.indices projection).zip fields).mapM fun entry =>
        SegmentReader.columnFrom K source found entry.2 entry.1 0 found.rowCount) =
      ((reader.indices projection).zip fields).mapM fun entry =>
        SegmentReader.columnFrom K source' found entry.2 entry.1 0 found.rowCount := by
    generalize reader.indices projection = indices at hone
    induction indices with
    | nil => exact fun _ => rfl
    | cons index indices ih =>
        intro fields
        cases fields with
        | nil => rfl
        | cons field fields =>
            rw [List.zip_cons_cons, List.mapM_cons, List.mapM_cons, hone index List.mem_cons_self,
              ih fun other hother => hone other (List.mem_cons_of_mem _ hother)]
  rw [readFrom_eq hmeta, readFrom_eq hmeta]
  congr 1
  funext fields
  rw [hall fields]

theorem storedBytesOf_eq_zero {chunks : List ColumnChunk} :
    ColumnChunk.storedBytesOf chunks = 0 ↔ ∀ spec ∈ ColumnChunk.specsOf chunks, spec.extent.len = 0 := by
  rw [ColumnChunk.storedBytesOf_eq, List.sum_eq_zero_iff, List.forall_mem_map]

/-- The rows of a column of a segment are the rows of the segment. -/
theorem built_len (L : K.Lawful M) (hbatches : ∀ batch ∈ batches, batch.Sound M schema)
    (hknown : ∀ field ∈ schema.fields, M.Known field.dataType)
    (h : buildSegment K segmentId schema fingerprint batches options = .ok built) (hbytes : built.bytes.length < 2 ^ 63)
    {index : Nat} {chunk : ColumnChunk} (hchunk : built.segmentMeta.columns[index]? = some chunk) :
    chunk.len = built.segmentMeta.rowCount := by
  obtain ⟨array, field, -, hsound, -, hserves⟩ := built_serves L hbatches hknown h hbytes hchunk
  obtain ⟨_, _, _, -, -, -, hrows, -⟩ := buildSegment_ok h
  rw [hserves.len, hsound.len, hrows]

/-- Reading fetches whatever has bytes of the blocks of a projected column. -/
theorem block_fetched (L : K.Lawful M) (hbatches : ∀ batch ∈ batches, batch.Sound M schema)
    (hknown : ∀ field ∈ schema.fields, M.Known field.dataType)
    (h : buildSegment K segmentId schema fingerprint batches options = .ok built) (hbytes : built.bytes.length < 2 ^ 63)
    {index : Nat} (hindex : index ∈ (built.reader readSchema).indices projection) {chunk : ColumnChunk}
    (hchunk : built.segmentMeta.columns[index]? = some chunk) {spec : BufferSpec}
    (hspec : spec ∈ ColumnChunk.specsOf chunk.blocks) (hsome : spec.extent.isEmpty = false) :
    (built.reader readSchema).Fetches K projection spec.extent := by
  refine ⟨hsome, fun batch hbatch => ?_⟩
  have hmeta := segmentMeta_built L h (hbytes.trans (by decide)) readSchema
  obtain ⟨field, part, hpart⟩ := readFrom_columns hmeta hbatch hindex
  unfold SegmentReader.columnFrom at hpart
  rw [hchunk] at hpart
  dsimp only at hpart
  rw [← built_len L hbatches hknown h hbytes hchunk] at hpart
  obtain ⟨hcut, -⟩ := (built_columns h).2 chunk (List.mem_of_getElem? hchunk)
  obtain ⟨bytes, hloads⟩ := decodeColumnRows_loads hcut hpart spec hspec
  rw [withhold, if_pos rfl] at hloads
  cases hloads

/-- Reading fetches nothing but what has bytes in the projected columns and in their blocks. -/
theorem fetches_of (hmeta : reader.segmentMeta K = .ok found) {batch : RecordBatch} (hread : reader.read K projection = .ok batch)
    {extent : Extent} (h : reader.Fetches K projection extent) :
    ∃ index ∈ reader.indices projection, ∃ chunk, found.columns[index]? = some chunk ∧ ∃ spec ∈ chunk.specs, spec.extent = extent := by
  by_contra hnone
  refine h.2 batch (Eq.trans (readFrom_congr hmeta fun index hindex chunk hchunk spec hspec => ?_) hread)
  have hother : spec.extent ≠ extent := fun heq => hnone ⟨index, hindex, chunk, hchunk, spec, hspec, heq⟩
  rw [withhold, if_neg hother]

/-- A plan that covers what reading fetches is of stored columns that have no bytes in blocks. -/
theorem stored_of_plans (L : K.Lawful M) (hbatches : ∀ batch ∈ batches, batch.Sound M schema)
    (hknown : ∀ field ∈ schema.fields, M.Known field.dataType)
    (h : buildSegment K segmentId schema fingerprint batches options = .ok built) (hbytes : built.bytes.length < 2 ^ 63)
    (hplans : (built.reader readSchema).Plans K projection) :
    (∀ indices, projection = some indices → ∀ index ∈ indices, index < schema.fields.length) ∧
      ∀ index ∈ (built.reader readSchema).indices projection, ∀ chunk, built.segmentMeta.columns[index]? = some chunk →
        ColumnChunk.storedBytesOf chunk.blocks = 0 := by
  obtain ⟨hlaid, hcolumns⟩ := built_columns h
  obtain ⟨plan, hplan, hcovers, -⟩ := hplans
  obtain ⟨hstored, hmem⟩ := projectedExtents_ok (segmentMeta_built L h (hbytes.trans (by decide)) readSchema) hplan
  constructor
  · rintro indices rfl index hindex
    exact length_columns h ▸ hstored index hindex
  · intro index hindex chunk hchunk
    refine storedBytesOf_eq_zero.mpr fun spec hspec => ?_
    by_contra hsome
    have hfilled : spec.extent.isEmpty = false := by simpa [Extent.isEmpty] using hsome
    have hfetched := block_fetched L hbatches hknown h hbytes hindex hchunk hspec hfilled
    obtain ⟨other, -, known, hknownAt, hextent⟩ := (hmem _).mp (hcovers _ hfetched)
    have hknownIn := List.mem_of_getElem? hknownAt
    rw [(hcolumns known hknownIn).2] at hextent
    obtain ⟨spec', hspec', heq⟩ := List.mem_map.mp hextent
    exact hsome (own_apart hlaid.ordered (List.mem_of_getElem? hchunk) hknownIn spec hspec spec' hspec' heq.symm)

/-- A plan of stored columns that have no bytes in blocks covers what reading fetches. -/
theorem plans_of_stored (L : K.Lawful M) (h : buildSegment K segmentId schema fingerprint batches options = .ok built)
    (hbytes : built.bytes.length < usizeLimit) {batch : RecordBatch}
    (hread : (built.reader readSchema).read K projection = .ok batch)
    (hstored : ∀ indices, projection = some indices → ∀ index ∈ indices, index < schema.fields.length)
    (hempty : ∀ index ∈ (built.reader readSchema).indices projection, ∀ chunk, built.segmentMeta.columns[index]? = some chunk →
      ColumnChunk.storedBytesOf chunk.blocks = 0) :
    (built.reader readSchema).Plans K projection := by
  have hmeta := segmentMeta_built L h hbytes readSchema
  obtain ⟨hlaid, hcolumns⟩ := built_columns h
  have hasked : ∀ index ∈ asked built.segmentMeta projection, index < built.segmentMeta.columns.length := by
    intro index hindex
    cases projection with
    | none => exact List.mem_range.mp hindex
    | some indices => exact length_columns h ▸ hstored indices rfl index hindex
  obtain ⟨plan, hplan⟩ := projectedExtents_total hmeta hasked
  obtain ⟨-, hmem⟩ := projectedExtents_ok hmeta hplan
  refine ⟨plan, hplan, fun extent hfetches => ?_, fun extent hextent => ?_⟩
  · obtain ⟨index, hindex, chunk, hchunk, spec, hspec, rfl⟩ := fetches_of hmeta hread hfetches
    rw [ColumnChunk.specs_eq] at hspec
    rcases List.mem_append.mp hspec with hspec | hspec
    · have hsome := hfetches.1
      rw [Extent.isEmpty, storedBytesOf_eq_zero.mp (hempty index hindex chunk hchunk) spec hspec] at hsome
      cases hsome
    · refine (hmem _).mpr ⟨index, ?_, chunk, hchunk, ?_⟩
      · cases projection with
        | none => exact List.mem_range.mpr (List.getElem?_eq_some_iff.mp hchunk).1
        | some indices => exact hindex
      · rw [(hcolumns chunk (List.mem_of_getElem? hchunk)).2]
        exact List.mem_map_of_mem hspec
  · obtain ⟨index, -, chunk, hchunk, hin⟩ := (hmem extent).mp hextent
    have hchunkIn := List.mem_of_getElem? hchunk
    rw [(hcolumns chunk hchunkIn).2] at hin
    obtain ⟨spec, hspec, rfl⟩ := List.mem_map.mp hin
    have hlies : spec ∈ ColumnChunk.specsOf built.segmentMeta.columns := by
      rw [ColumnChunk.specsOf_eq]
      refine List.mem_flatMap.mpr ⟨chunk, hchunkIn, ?_⟩
      rw [ColumnChunk.specs_eq]
      exact List.mem_append_right _ hspec
    exact (hlaid.within spec hlies).2

/-- A segment that was built is read, whatever the projection. There is a plan that covers what reading fetches just if the
segment stores every column that is asked for, and none of them in blocks that take any bytes. -/
theorem plans_cover_reads (L : K.Lawful M) (hbatches : ∀ batch ∈ batches, batch.Sound M schema)
    (hknown : ∀ field ∈ schema.fields, M.Known field.dataType) (hextends : Extends M (rowsOf batches) schema readSchema)
    (h : buildSegment K segmentId schema fingerprint batches options = .ok built) (hbytes : built.bytes.length < 2 ^ 63)
    {layout : List Nat} (haccepts : layoutAccepts layout schema.fields.length fingerprint = true) (offset : Nat)
    (hprojection : ∀ indices, projection = some indices → ∀ index ∈ indices, index < readSchema.fields.length) :
    ∃ reader batch, SegmentReader.new K built.bytes offset (built.placed offset).2 readSchema layout = .ok reader ∧
      reader.read K projection = .ok batch ∧
      (reader.Plans K projection ↔
        (∀ indices, projection = some indices → ∀ index ∈ indices, index < schema.fields.length) ∧
        ∀ index ∈ reader.indices projection, ∀ chunk, built.segmentMeta.columns[index]? = some chunk →
          ColumnChunk.storedBytesOf chunk.blocks = 0) := by
  have hwords : built.bytes.length < usizeLimit := hbytes.trans (by decide)
  have hindices : ∀ index ∈ (built.reader readSchema).indices projection,
      index < (built.reader readSchema).schema.fields.length := by
    intro index hindex
    cases projection with
    | none => exact List.mem_range.mp hindex
    | some indices => exact hprojection indices rfl index hindex
  obtain ⟨fields, hfields, -⟩ := projectedFields_ok hindices
  obtain ⟨columns, hread, -⟩ := readRows_built L hbatches hknown hextends h hbytes hfields (Nat.zero_add (rowsOf batches)).le
  rw [← read_built L h hwords projection] at hread
  refine ⟨built.reader readSchema, _, new_built L h hwords readSchema haccepts offset, hread, ?_, ?_⟩
  · exact stored_of_plans L hbatches hknown h hbytes
  · rintro ⟨hstored, hempty⟩
    exact plans_of_stored L h hwords hread hstored hempty

/-- The options without blocks. -/
def wholeOptions : Options := { blockedOptions with compressionBlockRows := 0 }

/-- The metadata of the five numbers, stored without blocks. -/
def wholeNumbersMeta : SegmentMeta :=
  match buildSegment emptyArchive 1 numberSchema 2 fiveNumbers wholeOptions with
  | .ok built => built.segmentMeta
  | .error _ => ⟨0, 0, 0, 0, 0, []⟩

/-- An archive of that metadata and no other. -/
def wholeKit : Kit :=
  plainKit (fun found => if found.tokens = wholeNumbersMeta.tokens then .ok [] else .error (.corrupt "another metadata"))
    (fun _ => .ok wholeNumbersMeta) (fun _ => .ok []) fun _ => .ok []

theorem wholeKit_lawful : wholeKit.Lawful plainMeaning := by
  change (soleKit wholeNumbersMeta).Lawful plainMeaning
  apply soleKit_lawful
  decide +kernel

/-- The five numbers without blocks: there is a plan for reading them, and the column added later. -/
theorem five_numbers_planned : ∃ built reader batch,
    buildSegment wholeKit 1 numberSchema 2 fiveNumbers wholeOptions = .ok built ∧
      SegmentReader.new wholeKit built.bytes 0 (built.placed 0).2 grownSchema [0, 2, 3] = .ok reader ∧
      reader.read wholeKit none = .ok batch ∧ reader.Plans wholeKit none := by
  have hsizes : ((buildSegment wholeKit 1 numberSchema 2 fiveNumbers wholeOptions).toOption.map fun built =>
      (decide (built.bytes.length < 2 ^ 63), built.segmentMeta.columns.map fun chunk =>
        ColumnChunk.storedBytesOf chunk.blocks)) = some (true, [0]) := by
    decide +kernel
  obtain ⟨built, hbuilt, hsizes⟩ := Option.map_eq_some_iff.mp hsizes
  obtain ⟨hbytes, hempty⟩ := Prod.mk.inj hsizes
  have hok := toOption_eq_some.mp hbuilt
  have haccepts : layoutAccepts [0, 2, 3] numberSchema.fields.length 2 = true := rfl
  have hprojection : ∀ indices, (none : Option (List Nat)) = some indices → ∀ index ∈ indices, index < grownSchema.fields.length :=
    nofun
  obtain ⟨reader, batch, hnew, hread, hplans⟩ := plans_cover_reads wholeKit_lawful fiveNumbers_oneSegment.sound
    fiveNumbers_oneSegment.known numberSchema_extends hok (of_decide_eq_true hbytes) haccepts 0 hprojection
  refine ⟨built, reader, batch, hok, hnew, hread, hplans.mpr ⟨nofun, fun index _ chunk hchunk => ?_⟩⟩
  have hmem : ColumnChunk.storedBytesOf chunk.blocks ∈ [0] :=
    hempty ▸ List.mem_map_of_mem (f := fun chunk => ColumnChunk.storedBytesOf chunk.blocks) (List.mem_of_getElem? hchunk)
  exact List.mem_singleton.mp hmem

/-- The second block of the five numbers is fetched, and the plan has but what lies beside them. -/
theorem blocks_unplanned : ∃ built reader,
    buildSegment numberKit 1 numberSchema 2 fiveNumbers blockedOptions = .ok built ∧
      SegmentReader.new numberKit built.bytes 0 (built.placed 0).2 numberSchema [0, 2] = .ok reader ∧
      reader.Fetches numberKit none ⟨64, 2⟩ ∧ reader.projectedExtents numberKit none = .ok [⟨192, 32⟩, ⟨256, 0⟩] ∧
      ¬reader.Plans numberKit none := by
  obtain ⟨built, hbuilt, hlen, -, hsame⟩ := fiveNumbers_built
  have hwords : built.bytes.length < usizeLimit := hlen ▸ by decide
  have haccepts : layoutAccepts [0, 2] numberSchema.fields.length 2 = true := rfl
  have hnew := new_built numberKit_lawful hbuilt hwords numberSchema haccepts 0
  have hmeta := segmentMeta_built numberKit_lawful hbuilt hwords numberSchema
  have hblocks : (fiveNumbersMeta.columns[0]?.map fun chunk => (ColumnChunk.specsOf chunk.blocks).map BufferSpec.extent) =
      some [⟨0, 1⟩, ⟨64, 2⟩, ⟨128, 1⟩] := by
    decide +kernel
  obtain ⟨chunk, hchunk, hextents⟩ := Option.map_eq_some_iff.mp hblocks
  obtain ⟨spec, hspec, hextent⟩ : ∃ spec ∈ ColumnChunk.specsOf chunk.blocks, spec.extent = ⟨64, 2⟩ :=
    List.mem_map.mp (hextents ▸ by decide)
  have hfetched : (built.reader numberSchema).Fetches numberKit none ⟨64, 2⟩ := by
    have hindex : 0 ∈ (built.reader numberSchema).indices none := List.mem_singleton_self 0
    rw [← hextent]
    exact block_fetched numberKit_lawful fiveNumbers_oneSegment.sound fiveNumbers_oneSegment.known hbuilt
      (hlen ▸ by decide) hindex (hsame ▸ hchunk) hspec (hextent ▸ rfl)
  have hplan : (built.reader numberSchema).projectedExtents numberKit none = .ok [⟨192, 32⟩, ⟨256, 0⟩] := by
    have hplanned : ((asked fiveNumbersMeta none).mapM (plannedOf fiveNumbersMeta)).toOption = some [[⟨192, 32⟩, ⟨256, 0⟩]] := by
      decide +kernel
    rw [projectedExtents_eq (hsame ▸ hmeta), toOption_eq_some.mp hplanned]
    rfl
  refine ⟨built, _, hbuilt, hnew, hfetched, hplan, fun ⟨plan, hother, hcovers, _⟩ => ?_⟩
  obtain rfl := Except.ok.inj (hplan.symm.trans hother)
  have hmem := hcovers _ hfetched
  simp at hmem

end Built

end Segment

end LocalTables
