import LocalTables.Columnar.Reader

/-! What the segment code relies on in Arrow, in the compressors and in the archive of its metadata. An array stands for a list
of values; slicing, joining, casting and building act on these. -/

namespace LocalTables

namespace Segment

/-- What arrays stand for. -/
structure Meaning (ν : Type) where
  /-- The buffers, the bitmap and the arrays below fit the type. -/
  Valid : ArrayData → Prop
  values : ArrayData → List ν
  null : ν
  /-- One array of the type can hold the values. -/
  Fits : DataType → List ν → Prop

namespace Meaning

variable {ν : Type} (M : Meaning ν)

/-- There are arrays of this type. -/
def Known (type : DataType) : Prop := ∃ array, M.Valid array ∧ array.dataType = type

/-- The same column in other memory. -/
structure Same (array other : ArrayData) : Prop where
  valid : M.Valid other
  dataType : other.dataType = array.dataType
  values : M.values other = M.values array
  nullCount : other.nullCount = array.nullCount

/-- Some rows of a column. -/
structure Rows (array : ArrayData) (start len : Nat) (part : ArrayData) : Prop where
  valid : M.Valid part
  dataType : part.dataType = array.dataType
  values : M.values part = ((M.values array).drop start).take len
  nullCount : array.nullCount = 0 → part.nullCount = 0

end Meaning

/-- The bitmap of an array, read back: none where it has no null, and else the same bits. -/
def NullsKept (array : ArrayData) (nulls : Option NullBuffer) : Prop :=
  if array.nullCount = 0 then nulls = none
  else ∃ stored kept, array.nulls = some stored ∧ nulls = some kept ∧ kept.bytes = stored.bytes ∧ kept.len = stored.len

/-- The form of a column stored as a dictionary, or as runs. -/
def ReEncoded (type form : DataType) : Prop := form = dictionaryType type ∨ form = runLengthType type

/-- The documented behaviour of what the segment code calls. -/
structure Kit.Lawful {ν : Type} (K : Kit) (M : Meaning ν) : Prop where
  length_values : ∀ {array}, M.Valid array → (M.values array).length = array.len
  len_lt : ∀ {array}, M.Valid array → array.len < usizeLimit
  nulls_length : ∀ {array nulls}, M.Valid array → array.nulls = some nulls →
    nulls.len = array.len ∧ nulls.bytes.length = (array.len + 7) / 8
  /-- A buffer fits in memory. -/
  buffer_length : ∀ {array}, M.Valid array → (∀ buffer ∈ array.buffers, buffer.length ≤ allocLimit) ∧
    ∀ nulls, array.nulls = some nulls → nulls.bytes.length ≤ allocLimit
  children : ∀ {array}, M.Valid array → array.children.map ArrayData.dataType = array.dataType.childDataTypes ∧
    ∀ child ∈ array.children, M.Valid child
  fits : ∀ {array}, M.Valid array → M.Fits array.dataType (M.values array)
  fits_part : ∀ {type values start len}, M.Fits type values → M.Fits type ((values.drop start).take len)
  /-- The buffers, the bitmap and the children of an array build one that stands for the same values. -/
  build : ∀ {array nulls children}, M.Valid array → NullsKept array nulls → List.Forall₂ M.Same array.children children →
    ∃ built, K.build ⟨array.dataType, array.len, array.offset, nulls, array.buffers, children⟩ = .ok built ∧ M.Same array built
  slice : ∀ {array start len}, M.Valid array → start + len ≤ array.len → M.Rows array start len (K.slice array start len)
  concat : ∀ {parts type joined}, parts ≠ [] → (∀ part ∈ parts, M.Valid part ∧ part.dataType = type) →
    K.concat parts = .ok joined → M.Valid joined ∧ joined.dataType = type ∧
      M.values joined = parts.flatMap M.values ∧ joined.nullCount = (parts.map ArrayData.nullCount).sum
  concat_fits : ∀ {parts type}, parts ≠ [] → (∀ part ∈ parts, M.Valid part ∧ part.dataType = type) →
    M.Fits type (parts.flatMap M.values) → ∃ joined, K.concat parts = .ok joined
  gc : ∀ {array}, M.Valid array → array.dataType = .leaf .utf8View ∨ array.dataType = .leaf .binaryView →
    M.Same array (K.gc array)
  newEmptyArray : ∀ {type}, M.Known type → M.Valid (K.newEmptyArray type) ∧ (K.newEmptyArray type).dataType = type ∧
    M.values (K.newEmptyArray type) = [] ∧ (K.newEmptyArray type).nullCount = 0
  newNullArray : ∀ {type rows}, M.Fits type (List.replicate rows M.null) → M.Valid (K.newNullArray type rows) ∧
    (K.newNullArray type rows).dataType = type ∧ M.values (K.newNullArray type rows) = List.replicate rows M.null
  /-- A cast to a dictionary or to runs keeps the values, -/
  cast : ∀ {array form encoded}, M.Valid array → worthReEncoding array.dataType = true → ReEncoded array.dataType form →
    K.cast array form = .ok encoded →
    M.Valid encoded ∧ encoded.dataType = form ∧ M.values encoded = M.values array
  /-- and what such a cast can make can be cast back. -/
  cast_back : ∀ {array form encoded other}, M.Valid array → worthReEncoding array.dataType = true →
    ReEncoded array.dataType form → K.cast array form = .ok encoded → M.Valid other → other.dataType = form →
    ∃ back, K.cast other array.dataType = .ok back ∧ M.Valid back ∧ back.dataType = array.dataType ∧
      M.values back = M.values other
  /-- The nulls of the types that are re-encoded are among their values. -/
  nullCount_eq_zero : ∀ {array}, M.Valid array → worthReEncoding array.dataType = true →
    (array.nullCount = 0 ↔ M.null ∉ M.values array)
  unpack : ∀ {codec bytes packed}, K.pack codec bytes = .ok packed → K.unpack codec packed bytes.length = .ok bytes
  access : ∀ {found payload}, K.archive found = .ok payload → K.access payload = .ok found
  /-- The record of a block takes more than two words. -/
  archive_length : ∀ {found payload}, K.archive found = .ok payload →
    ∀ chunk ∈ found.columns, chunk.blocks.length * 16 ≤ payload.length

namespace Kit.Lawful

variable {ν : Type} {K : Kit} {M : Meaning ν} {array other : ArrayData}

theorem same_refl (h : M.Valid array) : M.Same array array := ⟨h, rfl, rfl, rfl⟩

theorem same_len (L : K.Lawful M) (h : M.Valid array) (hsame : M.Same array other) : other.len = array.len := by
  rw [← L.length_values hsame.valid, ← L.length_values h, hsame.values]

/-- Copying the rows of an array changes none of them. -/
theorem compact_same (L : K.Lawful M) (h : M.Valid array) {compacted : ArrayData} (hcompact : compact K array = some compacted) :
    M.Same array compacted := by
  unfold compact at hcompact
  split at hcompact
  · next htype => exact Option.some.inj hcompact ▸ L.gc h (.inl htype)
  · next htype => exact Option.some.inj hcompact ▸ L.gc h (.inr htype)
  · next =>
      cases hconcat : K.concat [K.newEmptyArray array.dataType, array] with
      | error message =>
          rw [hconcat] at hcompact
          cases hcompact
      | ok joined =>
          rw [hconcat] at hcompact
          obtain rfl := Option.some.inj hcompact
          obtain ⟨hvalid, htype, hvalues, hnulls⟩ := L.newEmptyArray ⟨array, h, rfl⟩
          obtain ⟨hjoined, hjoinedType, hjoinedValues, hjoinedNulls⟩ := L.concat (List.cons_ne_nil _ _) (fun part hpart => by
            rcases List.mem_cons.mp hpart with rfl | hpart
            · exact ⟨hvalid, htype⟩
            · obtain rfl := List.mem_singleton.mp hpart
              exact ⟨h, rfl⟩) hconcat
          refine ⟨hjoined, hjoinedType, ?_, ?_⟩
          · simp [hjoinedValues, hvalues]
          · simp [hjoinedNulls, hnulls]

theorem storedArray_same (L : K.Lawful M) (h : M.Valid array) : M.Same array (storedArray K array) := by
  unfold storedArray
  split
  · exact same_refl h
  · cases hcompact : compact K array with
    | none => exact same_refl h
    | some compacted => exact L.compact_same h hcompact

/-- The buffers an array is stored as fit in memory. -/
theorem stored_length (L : K.Lawful M) (h : M.Valid array) {buffer : BufferRole × Bytes}
    (hbuffer : buffer ∈ validity array ++ array.buffers.map fun buffer => (.data, buffer)) : buffer.2.length ≤ allocLimit := by
  obtain ⟨hsmall, hbitmap⟩ := L.buffer_length h
  rcases List.mem_append.mp hbuffer with hbuffer | hbuffer
  · unfold validity at hbuffer
    split at hbuffer
    · next nulls hnulls =>
        split at hbuffer
        · rw [List.mem_singleton.mp hbuffer]
          exact hbitmap nulls hnulls
        · cases hbuffer
    · cases hbuffer
  · obtain ⟨buffer, hmem, rfl⟩ := List.mem_map.mp hbuffer
    exact hsmall buffer hmem

theorem slice_len (L : K.Lawful M) (h : M.Valid array) {start len : Nat} (hinside : start + len ≤ array.len) :
    (K.slice array start len).len = len := by
  have hrows := L.slice h hinside
  rw [← L.length_values hrows.valid, hrows.values, List.length_take, List.length_drop, L.length_values h]
  omega

end Kit.Lawful

section Plain

/-! Columns of eight-bit numbers without nulls, and columns of nothing but nulls. -/

def numbers (bytes : Bytes) : ArrayData := ⟨.leaf .int8, bytes.length, 0, none, [bytes], []⟩

def nulls (rows : Nat) : ArrayData := ⟨.leaf .null, rows, 0, none, [], []⟩

/-- Whether columns of a type are the numbers. -/
def isNumbers : DataType → Bool
  | .leaf .int8 => true
  | _ => false

def plainMeaning : Meaning (Option UInt8) where
  Valid array := (∃ bytes, bytes.length ≤ allocLimit ∧ array = numbers bytes) ∨ ∃ rows, rows < usizeLimit ∧ array = nulls rows
  values array :=
    match array.buffers with
    | [bytes] => bytes.map some
    | _ => List.replicate array.len none
  null := none
  Fits type values := type = .leaf .int8 ∧ none ∉ values ∧ values.length ≤ allocLimit ∨
    type = .leaf .null ∧ (∀ value ∈ values, value = none) ∧ values.length < usizeLimit

/-- A buffer of one byte over and over is packed to that byte. -/
def plainPack : Bytes → Bytes
  | [] => []
  | byte :: bytes => if bytes.all (· == byte) then [byte] else byte :: bytes

/-- Arrow for such columns, with a given archive. -/
def plainKit (archive : SegmentMeta → Except Error Bytes) (access : Bytes → Except Error SegmentMeta)
    (archiveZones : List ZoneMap → Except Error Bytes) (accessZones : Bytes → Except Error (List ZoneMap)) : Kit where
  build array := .ok array
  slice array start len :=
    match array.buffers with
    | [bytes] => numbers ((bytes.drop start).take len)
    | _ => nulls len
  concat parts :=
    if parts.all fun part => isNumbers part.dataType then
      let bytes := parts.flatMap fun part => part.buffers.flatten
      if bytes.length ≤ allocLimit then .ok (numbers bytes) else .error "offset overflow"
    else
      let rows := (parts.map ArrayData.len).sum
      if rows < usizeLimit then .ok (nulls rows) else .error "offset overflow"
  cast _ _ := .error "no cast is supported"
  newEmptyArray type := if isNumbers type then numbers [] else nulls 0
  newNullArray type rows := if isNumbers type then numbers [] else nulls rows
  filter array mask := .ok (numbers (((array.buffers.flatten.zip mask).filter Prod.snd).map Prod.fst))
  gc array := array
  viewBytesUsed _ := 0
  display _ := "Int8"
  sliceMemorySize array := .ok (array.buffers.map List.length).sum
  arrayMemorySize array := (array.buffers.map List.length).sum
  view array :=
    match array.buffers with
    | [bytes] => .leaf .int8 (bytes.map fun byte => some (.word byte.toNat))
    | _ => .leaf .null (List.replicate array.len none)
  pack _ bytes := .ok (plainPack bytes)
  unpack _ packed len :=
    match packed with
    | [byte] => .ok (List.replicate len byte)
    | _ => .ok packed
  aggregates := plainAggregates
  hashing := plainHashing
  archive := archive
  access := access
  archiveZones := archiveZones
  accessZones := accessZones

variable {archive : SegmentMeta → Except Error Bytes} {access : Bytes → Except Error SegmentMeta}
  {archiveZones : List ZoneMap → Except Error Bytes} {accessZones : Bytes → Except Error (List ZoneMap)}

theorem plain_numbers {bytes : Bytes} (h : bytes.length ≤ allocLimit) : plainMeaning.Valid (numbers bytes) := .inl ⟨bytes, h, rfl⟩

theorem plain_nulls {rows : Nat} (h : rows < usizeLimit) : plainMeaning.Valid (nulls rows) := .inr ⟨rows, h, rfl⟩

theorem plainPack_unpack {bytes : Bytes} {codec : Codec} :
    (plainKit archive access archiveZones accessZones).unpack codec (plainPack bytes) bytes.length = .ok bytes := by
  cases bytes with
  | nil => rfl
  | cons byte bytes =>
      rw [plainPack]
      split
      · next hall =>
          have hsame : bytes = List.replicate bytes.length byte :=
            List.eq_replicate_of_mem fun other hother => eq_of_beq (List.all_eq_true.mp hall other hother)
          change Except.ok (List.replicate (bytes.length + 1) byte) = _
          rw [List.replicate_succ, ← hsame]
      · next hmixed =>
          cases bytes with
          | nil => exact absurd rfl hmixed
          | cons other bytes => rfl

theorem values_numbers (bytes : Bytes) : plainMeaning.values (numbers bytes) = bytes.map some := rfl

theorem values_nulls (rows : Nat) : plainMeaning.values (nulls rows) = List.replicate rows none := rfl

theorem bytes_joined {parts : List ArrayData} (h : ∀ part ∈ parts, plainMeaning.Valid part ∧ part.dataType = .leaf .int8) :
    (parts.flatMap fun part => part.buffers.flatten).map some = parts.flatMap plainMeaning.values ∧
      (parts.map ArrayData.nullCount).sum = 0 := by
  induction parts with
  | nil => exact ⟨rfl, rfl⟩
  | cons part parts ih =>
      obtain ⟨⟨bytes, -, rfl⟩ | ⟨rows, -, rfl⟩, htype⟩ := h part List.mem_cons_self
      · obtain ⟨hvalues, hcount⟩ := ih fun other hother => h other (List.mem_cons_of_mem _ hother)
        rw [List.flatMap_cons, List.flatMap_cons, List.map_append, hvalues, values_numbers, List.map_cons, List.sum_cons, hcount]
        exact ⟨by simp [numbers], rfl⟩
      · cases htype

theorem rows_joined {parts : List ArrayData} (h : ∀ part ∈ parts, plainMeaning.Valid part ∧ part.dataType = .leaf .null) :
    List.replicate (parts.map ArrayData.len).sum none = parts.flatMap plainMeaning.values ∧
      (parts.map ArrayData.nullCount).sum = 0 := by
  induction parts with
  | nil => exact ⟨rfl, rfl⟩
  | cons part parts ih =>
      obtain ⟨⟨bytes, -, rfl⟩ | ⟨rows, -, rfl⟩, htype⟩ := h part List.mem_cons_self
      · cases htype
      · obtain ⟨hvalues, hcount⟩ := ih fun other hother => h other (List.mem_cons_of_mem _ hother)
        rw [List.flatMap_cons, ← hvalues, values_nulls, List.map_cons, List.sum_cons, List.replicate_add, List.map_cons,
          List.sum_cons, hcount]
        exact ⟨rfl, rfl⟩

/-- Joining such columns, where the result fits into memory. -/
theorem plain_concat {parts : List ArrayData} {type : DataType} (hsome : parts ≠ [])
    (h : ∀ part ∈ parts, plainMeaning.Valid part ∧ part.dataType = type) :
    (type = .leaf .int8 ∧ (parts.all fun part => isNumbers part.dataType) = true) ∨
      (type = .leaf .null ∧ (parts.all fun part => isNumbers part.dataType) = false) := by
  obtain ⟨part, hpart⟩ := List.exists_mem_of_ne_nil parts hsome
  obtain ⟨⟨bytes, -, rfl⟩ | ⟨rows, -, rfl⟩, htype⟩ := h part hpart
  · refine .inl ⟨htype.symm, List.all_eq_true.mpr fun other hother => ?_⟩
    rw [(h other hother).2, ← htype]
    rfl
  · refine .inr ⟨htype.symm, Bool.eq_false_iff.mpr fun hall => ?_⟩
    have hother := List.all_eq_true.mp hall _ hpart
    cases hother

theorem plain_fits {array : ArrayData} (h : plainMeaning.Valid array) :
    plainMeaning.Fits array.dataType (plainMeaning.values array) := by
  obtain ⟨bytes, hbytes, rfl⟩ | ⟨rows, hrows, rfl⟩ := h
  · refine .inl ⟨rfl, fun hmem => ?_, ?_⟩
    · obtain ⟨byte, -, hbyte⟩ := List.mem_map.mp hmem
      cases hbyte
    · rwa [values_numbers, List.length_map]
  · refine .inr ⟨rfl, fun value hvalue => List.eq_of_mem_replicate hvalue, ?_⟩
    rwa [values_nulls, List.length_replicate]

theorem plain_fits_part {type : DataType} {values : List (Option UInt8)} {start len : Nat} (h : plainMeaning.Fits type values) :
    plainMeaning.Fits type ((values.drop start).take len) := by
  have hle : ((values.drop start).take len).length ≤ values.length := by
    rw [List.length_take, List.length_drop]
    omega
  obtain ⟨htype, hnone, hlen⟩ | ⟨htype, hall, hlen⟩ := h
  · exact .inl ⟨htype, fun hmem => hnone (List.mem_of_mem_drop (List.mem_of_mem_take hmem)), hle.trans hlen⟩
  · exact .inr ⟨htype, fun value hvalue => hall value (List.mem_of_mem_drop (List.mem_of_mem_take hvalue)), hle.trans_lt hlen⟩

theorem plain_slice {array : ArrayData} {start len : Nat} (h : plainMeaning.Valid array) (hinside : start + len ≤ array.len) :
    plainMeaning.Rows array start len ((plainKit archive access archiveZones accessZones).slice array start len) := by
  obtain ⟨bytes, hbytes, rfl⟩ | ⟨rows, hrows, rfl⟩ := h
  · refine ⟨plain_numbers ?_, rfl, ?_, fun _ => rfl⟩
    · rw [List.length_take, List.length_drop]
      omega
    · change ((bytes.drop _).take _).map some = _
      rw [values_numbers, List.map_take, List.map_drop]
  · change _ ≤ rows at hinside
    refine ⟨plain_nulls (by omega), rfl, ?_, fun _ => rfl⟩
    rw [values_nulls, List.drop_replicate, List.take_replicate, min_eq_left (by omega)]
    rfl

theorem plain_joined {parts : List ArrayData} {type : DataType} {joined : ArrayData} (hsome : parts ≠ [])
    (hparts : ∀ part ∈ parts, plainMeaning.Valid part ∧ part.dataType = type)
    (hjoined : (plainKit archive access archiveZones accessZones).concat parts = .ok joined) :
    plainMeaning.Valid joined ∧ joined.dataType = type ∧ plainMeaning.values joined = parts.flatMap plainMeaning.values ∧
      joined.nullCount = (parts.map ArrayData.nullCount).sum := by
  rcases plain_concat hsome hparts with ⟨rfl, hall⟩ | ⟨rfl, hall⟩
  · obtain ⟨hvalues, hcount⟩ := bytes_joined hparts
    simp only [plainKit, hall, if_true] at hjoined
    split at hjoined
    · next hroom =>
        obtain rfl := Except.ok.inj hjoined
        exact ⟨plain_numbers hroom, rfl, hvalues, hcount.symm⟩
    · cases hjoined
  · obtain ⟨hvalues, hcount⟩ := rows_joined hparts
    simp only [plainKit, hall, Bool.false_eq_true, if_false] at hjoined
    split at hjoined
    · next hroom =>
        obtain rfl := Except.ok.inj hjoined
        exact ⟨plain_nulls hroom, rfl, hvalues, hcount.symm⟩
    · cases hjoined

theorem plain_joins {parts : List ArrayData} {type : DataType} (hsome : parts ≠ [])
    (hparts : ∀ part ∈ parts, plainMeaning.Valid part ∧ part.dataType = type)
    (hfits : plainMeaning.Fits type (parts.flatMap plainMeaning.values)) :
    ∃ joined, (plainKit archive access archiveZones accessZones).concat parts = .ok joined := by
  rcases plain_concat hsome hparts with ⟨rfl, hall⟩ | ⟨rfl, hall⟩
  · obtain ⟨-, -, hlen⟩ | ⟨htype, -⟩ := hfits
    · rw [← (bytes_joined hparts).1, List.length_map] at hlen
      simp only [plainKit, hall, if_true, hlen]
      exact ⟨_, rfl⟩
    · cases htype
  · obtain ⟨htype, -⟩ | ⟨-, -, hlen⟩ := hfits
    · cases htype
    · rw [← (rows_joined hparts).1, List.length_replicate] at hlen
      simp only [plainKit, hall, Bool.false_eq_true, if_false, hlen, if_true]
      exact ⟨_, rfl⟩

/-- The laws hold of such columns, whatever archive there is that gives back what it is given. -/
theorem plainKit_lawful (haccess : ∀ {found payload}, archive found = .ok payload → access payload = .ok found)
    (hlength : ∀ {found payload}, archive found = .ok payload → ∀ chunk ∈ found.columns, chunk.blocks.length * 16 ≤ payload.length) :
    (plainKit archive access archiveZones accessZones).Lawful plainMeaning where
  length_values h := by
    obtain ⟨bytes, -, rfl⟩ | ⟨rows, -, rfl⟩ := h
    · exact List.length_map _
    · exact List.length_replicate
  len_lt h := by
    obtain ⟨bytes, hbytes, rfl⟩ | ⟨rows, hrows, rfl⟩ := h
    · exact hbytes.trans_lt (by decide)
    · exact hrows
  nulls_length h hnulls := by
    obtain ⟨bytes, -, rfl⟩ | ⟨rows, -, rfl⟩ := h <;> cases hnulls
  buffer_length h := by
    obtain ⟨bytes, hbytes, rfl⟩ | ⟨rows, -, rfl⟩ := h
    · exact ⟨fun buffer hbuffer => List.mem_singleton.mp hbuffer ▸ hbytes, fun _ hnulls => nomatch hnulls⟩
    · exact ⟨fun buffer hbuffer => absurd hbuffer List.not_mem_nil, fun _ hnulls => nomatch hnulls⟩
  children h := by
    obtain ⟨bytes, -, rfl⟩ | ⟨rows, -, rfl⟩ := h
    · exact ⟨rfl, fun _ hchild => absurd hchild List.not_mem_nil⟩
    · exact ⟨rfl, fun _ hchild => absurd hchild List.not_mem_nil⟩
  fits := plain_fits
  fits_part := plain_fits_part
  build h hnulls hchildren := by
    obtain ⟨bytes, hbytes, rfl⟩ | ⟨rows, hrows, rfl⟩ := h
    · obtain rfl : _ = none := hnulls
      cases hchildren
      exact ⟨_, rfl, plain_numbers hbytes, rfl, rfl, rfl⟩
    · obtain rfl : _ = none := hnulls
      cases hchildren
      exact ⟨_, rfl, plain_nulls hrows, rfl, rfl, rfl⟩
  slice := plain_slice
  concat := plain_joined
  concat_fits := plain_joins
  gc h htype := by
    obtain ⟨bytes, -, rfl⟩ | ⟨rows, -, rfl⟩ := h <;> rcases htype with htype | htype <;> cases htype
  newEmptyArray h := by
    obtain ⟨array, ⟨bytes, -, rfl⟩ | ⟨rows, -, rfl⟩, rfl⟩ := h
    · exact ⟨plain_numbers (Nat.zero_le _), rfl, rfl, rfl⟩
    · exact ⟨plain_nulls (by decide), rfl, rfl, rfl⟩
  newNullArray h := by
    obtain ⟨rfl, hnone, -⟩ | ⟨rfl, -, hlen⟩ := h
    · rename_i rows
      cases rows with
      | zero => exact ⟨plain_numbers (Nat.zero_le _), rfl, rfl⟩
      | succ rows => exact absurd List.mem_cons_self hnone
    · rw [List.length_replicate] at hlen
      exact ⟨plain_nulls hlen, rfl, rfl⟩
  cast _ _ _ hcast := nomatch hcast
  cast_back _ _ _ hcast := nomatch hcast
  nullCount_eq_zero h hworth := by
    obtain ⟨bytes, -, rfl⟩ | ⟨rows, -, rfl⟩ := h
    · refine iff_of_true rfl fun hmem => ?_
      obtain ⟨byte, -, hbyte⟩ := List.mem_map.mp hmem
      cases hbyte
    · cases hworth
  unpack h := by
    obtain rfl := Except.ok.inj h
    exact plainPack_unpack
  access := haccess
  archive_length := hlength

/-- An archive that writes nothing. -/
def emptyArchive : Kit := plainKit (fun _ => .ok []) (fun _ => .error (.corrupt "an empty archive")) (fun _ => .ok []) fun _ => .ok []

/-- A column of numbers. -/
def numberSchema : Schema DataType := ⟨[⟨"value", .leaf .int8, false⟩], []⟩

/-- Five numbers in two batches. -/
def fiveNumbers : List RecordBatch := [⟨numberSchema, [numbers [7, 7, 7]], 3⟩, ⟨numberSchema, [numbers [1, 2]], 2⟩]

/-- Blocks and pages of two rows, packed, with a filter. -/
def blockedOptions : Options where
  compression := .lz4
  dictionaryEncoding := true
  rleEncoding := true
  compressionBlockRows := 2
  pageRows := 2
  bloomFilters := .all
  trigramFilters := .none
  bloomBitsPerValue := 10

end Plain

end Segment

end LocalTables
