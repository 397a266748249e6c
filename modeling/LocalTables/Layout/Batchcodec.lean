import LocalTables.Columnar.ReadBack

/-! How the log keeps the batches it is given (`layout/batchcodec.rs`): column by column, as the buffers of Arrow's arrays, with
the arrays below each. An array begins at index zero in the log, so one that is cut out of another is copied first. -/

namespace LocalTables

namespace DataType

/-- Whether the rows of a type are views into its child. -/
def isListView : DataType → Bool
  | list .listView _ | list .largeListView _ => true
  | _ => false

/-- The types a type is made of: itself, and those its child arrays are made of. -/
inductive Contains : DataType → DataType → Prop where
  | self (type : DataType) : Contains type type
  | nested {type child inner : DataType} : child ∈ type.childDataTypes → Contains child inner → Contains type inner

/-- No list of the type is laid out as views, at any depth. -/
def ViewFree (type : DataType) : Prop := ∀ inner, type.Contains inner → inner.isListView = false

theorem viewFree_iff {type : DataType} :
    type.ViewFree ↔ type.isListView = false ∧ ∀ child ∈ type.childDataTypes, child.ViewFree := by
  constructor
  · exact fun h => ⟨h type (.self type), fun child hchild inner hinner => h inner (.nested hchild hinner)⟩
  · rintro ⟨hself, hbelow⟩ inner hinner
    cases hinner with
    | self => exact hself
    | nested hchild hinner => exact hbelow _ hchild inner hinner

end DataType

namespace Segment

/-- What comes of joining several arrays begins at index zero. -/
def Kit.JoinsFromZero (K : Kit) : Prop :=
  ∀ parts joined, 2 ≤ parts.length → K.concat parts = .ok joined → joined.offset = 0

namespace Batchcodec

/-- One column, mirroring Arrow's own array layout. -/
structure ColumnData where
  len : Nat
  nullCount : Nat
  /-- Null bitmap, starting at bit zero. Absent when nothing is null. -/
  validity : Option Bytes
  /-- Arrow's own buffers for this array, in Arrow's own order. -/
  buffers : List Bytes
  children : List ColumnData

/-- A batch, column by column. -/
structure BatchData where
  rowCount : Nat
  columns : List ColumnData

/-- The types of a data type's child arrays, as the log counts them. -/
def childDataTypes : DataType → List DataType
  | .list .list field | .list .largeList field | .list (.fixedSizeList _) field | .list (.map _) field => [field.dataType]
  | .struct fields => fields.map Field.dataType
  | .union fields _ => fields.map fun field => field.2.dataType
  | .dictionary _ values => [values]
  | .runEndEncoded runEnds values => [runEnds.dataType, values.dataType]
  | _ => []

section Codec

variable (K : Kit)

/-- Copy an array into fresh buffers holding only its own rows. An empty array goes in front: alone it would be cut again. -/
def compact (array : ArrayData) : Outcome Error ArrayData :=
  match K.concat [K.newEmptyArray array.dataType, array] with
  | .ok joined => .ok joined
  | .error _ => .panic "concat of two arrays of the same type cannot fail"

/-- The array that is logged in the place of an array. -/
def fromZero (array : ArrayData) : Outcome Error ArrayData := if array.offset = 0 then .ok array else compact K array

/-- Lay out an array, with the arrays below it to a given depth. -/
def encodeArrayTo : Nat → ArrayData → Outcome Error ColumnData
  | 0, _ => .panic "an array is deeper than its type"
  | depth + 1, array => do
      let data ← fromZero K array
      -- `debug_assert_eq!`
      if data.offset ≠ 0 then .panic "a compacted array starts at index zero"
      else do
        let children ← data.children.mapM (encodeArrayTo depth)
        return {
          len := data.len
          nullCount := data.nullCount
          validity := (data.nulls.filter fun nulls => nulls.nullCount > 0).map NullBuffer.bytes
          buffers := data.buffers
          children := children }

def encodeArray (array : ArrayData) : Outcome Error ColumnData := encodeArrayTo K array.dataType.depth array

/-- Serialize a batch. -/
def encode (batch : RecordBatch) : Outcome Error BatchData := do
  let columns ← batch.columns.mapM (encodeArray K)
  return ⟨batch.numRows, columns⟩

/-- The bitmap of valid rows, as long as the column. -/
def decodeValidity (validity : Option Bytes) (len : Nat) : Outcome Error (Option NullBuffer) :=
  match validity with
  | none => return none
  | some bytes =>
      let required := (len + 7) / 8
      if bytes.length < required then
        .fail (.corrupt s!"a logged {len}-row column needs {required} bitmap bytes, found {bytes.length}")
      else return some ⟨bytes.take required, len, bytes.length⟩

mutual

def buildData : ColumnData → DataType → Nat → Outcome Error ArrayData
  | ⟨_, _, validity, buffers, children⟩, type, len => do
      let nulls ← decodeValidity validity len
      let types := childDataTypes type
      if children.length ≠ types.length then
        .fail (.corrupt s!"a logged {K.display type} column holds {children.length} children, the type has {types.length}")
      else
        let below ← buildChildren children types
        match K.build ⟨type, len, 0, nulls, buffers, below⟩ with
        | .ok array => return array
        | .error message => .fail (.corrupt s!"a logged {K.display type} column failed Arrow's checks: {message}")

def buildChildren : List ColumnData → List DataType → Outcome Error (List ArrayData)
  | child :: children, type :: types => do
      let array ← buildData child type child.len
      let arrays ← buildChildren children types
      return array :: arrays
  | _, _ => return []

end

def decodeArray (archived : ColumnData) (type : DataType) (expectedRows : Nat) : Outcome Error ArrayData :=
  if archived.len ≠ expectedRows then
    .fail (.corrupt s!"a logged column holds {archived.len} rows, the batch holds {expectedRows}")
  else buildData K archived type archived.len

/-- One projected column, with its field. -/
def decodeField (archived : BatchData) (schema : Schema DataType) (index : Nat) :
    Outcome Error (Field DataType × ArrayData) :=
  match schema.fields[index]? with
  | none => .fail (.invalidArgument s!"projected column {index} is out of range")
  | some field =>
      match archived.columns[index]? with
      | none => .panic "index out of bounds"
      | some column => do
          let array ← decodeArray K column field.dataType archived.rowCount
          return (field, array)

/-- Rebuild a batch from an archived record. -/
def decode (archived : BatchData) (schema : Schema DataType) (projection : Option (List Nat)) : Outcome Error RecordBatch :=
  if archived.columns.length ≠ schema.fields.length then
    .fail (.corrupt s!"logged batch holds {archived.columns.length} columns, the schema has {schema.fields.length}")
  else do
    let indices := projection.getD (List.range schema.fields.length)
    let columns ← indices.mapM (decodeField K archived schema)
    let rowCount := if (columns.map Prod.snd).isEmpty then some archived.rowCount else none
    Outcome.ofExcept (RecordBatch.tryNew ⟨columns.map Prod.fst, []⟩ (columns.map Prod.snd) rowCount)

end Codec

section RoundTrip

variable {ν : Type} {K : Kit} {M : Meaning ν} {array data : ArrayData} {column : ColumnData} {depth : Nat}

/-- The log counts the children of a type as the segments do, views apart: it has none for those, and Arrow one. -/
theorem length_childDataTypes (type : DataType) :
    (childDataTypes type).length = type.childDataTypes.length ↔ type.isListView = false := by
  cases type with
  | leaf type => exact iff_of_true rfl rfl
  | list layout field => cases layout <;> simp [childDataTypes, DataType.childDataTypes, DataType.isListView]
  | struct fields => exact iff_of_true rfl rfl
  | union fields mode => exact iff_of_true rfl rfl
  | dictionary key value => exact iff_of_true rfl rfl
  | runEndEncoded runEnds values => exact iff_of_true rfl rfl

theorem childDataTypes_eq {type : DataType} (h : type.isListView = false) : childDataTypes type = type.childDataTypes := by
  cases type with
  | leaf type => rfl
  | list layout field => cases layout <;> first | rfl | cases h
  | struct fields => rfl
  | union fields mode => rfl
  | dictionary key value => rfl
  | runEndEncoded runEnds values => rfl

/-- The array that is logged holds the rows of the array, from index zero on. -/
theorem fromZero_same (L : K.Lawful M) (hjoins : K.JoinsFromZero) (h : M.Valid array) :
    ∃ data, fromZero K array = .ok data ∧ M.Same array data ∧ data.offset = 0 := by
  unfold fromZero
  by_cases hzero : array.offset = 0
  · rw [if_pos hzero]
    exact ⟨array, rfl, Kit.Lawful.same_refl h, hzero⟩
  · rw [if_neg hzero]
    obtain ⟨hempty, htype, hvalues, hnulls⟩ := L.newEmptyArray ⟨array, h, rfl⟩
    have hparts : ∀ part ∈ [K.newEmptyArray array.dataType, array], M.Valid part ∧ part.dataType = array.dataType := by
      intro part hpart
      rcases List.mem_cons.mp hpart with rfl | hpart
      · exact ⟨hempty, htype⟩
      · rw [List.mem_singleton.mp hpart]
        exact ⟨h, rfl⟩
    have hflat : [K.newEmptyArray array.dataType, array].flatMap M.values = M.values array := by simp [hvalues]
    obtain ⟨joined, hjoined⟩ := L.concat_fits (List.cons_ne_nil _ _) hparts (hflat ▸ L.fits h)
    obtain ⟨hvalid, hjoinedType, hjoinedValues, hjoinedNulls⟩ := L.concat (List.cons_ne_nil _ _) hparts hjoined
    refine ⟨joined, ?_, ⟨hvalid, hjoinedType, hjoinedValues.trans hflat, ?_⟩, hjoins _ _ le_rfl hjoined⟩
    · rw [compact, hjoined]
    · simp [hjoinedNulls, hnulls]

theorem encodeArrayTo_ok (h : encodeArrayTo K (depth + 1) array = .ok column) :
    ∃ data children, fromZero K array = .ok data ∧ data.children.mapM (encodeArrayTo K depth) = .ok children ∧
      column = ⟨data.len, data.nullCount, (data.nulls.filter fun nulls => nulls.nullCount > 0).map NullBuffer.bytes,
        data.buffers, children⟩ := by
  rw [encodeArrayTo] at h
  obtain ⟨data, hdata, h⟩ := bind_eq_ok.mp h
  split at h
  · cases h
  · obtain ⟨children, hchildren, h⟩ := bind_eq_ok.mp h
    exact ⟨data, children, hdata, hchildren, (Except.ok.inj h).symm⟩

theorem encodeArrayTo_total (L : K.Lawful M) (hjoins : K.JoinsFromZero) (depth : Nat) : ∀ {array : ArrayData}, M.Valid array →
    array.dataType.depth ≤ depth → ∃ column, encodeArrayTo K depth array = .ok column := by
  induction depth with
  | zero =>
      intro array _ hdepth
      exact absurd (DataType.depth_pos array.dataType) (Nat.not_lt.mpr hdepth)
  | succ depth ih =>
      intro array hvalid hdepth
      obtain ⟨data, hdata, hsame, hzero⟩ := fromZero_same L hjoins hvalid
      obtain ⟨htypes, hbelow⟩ := L.children hsame.valid
      have hone : ∀ child ∈ data.children, ∃ column, encodeArrayTo K depth child = .ok column := by
        intro child hchild
        have htype : child.dataType ∈ data.dataType.childDataTypes := htypes ▸ List.mem_map_of_mem hchild
        have hless := DataType.depth_childDataTypes htype
        rw [hsame.dataType] at hless
        exact ih (hbelow child hchild) (by omega)
      obtain ⟨children, hchildren⟩ := mapM_total hone
      rw [encodeArrayTo, hdata]
      simp only [bind, Except.bind, hzero, ne_eq, not_true_eq_false, if_false, hchildren]
      exact ⟨_, rfl⟩

/-- The bitmap comes back where there is a null. -/
theorem decodeValidity_kept (L : K.Lawful M) (h : M.Valid data) :
    ∃ nulls, decodeValidity ((data.nulls.filter fun nulls => nulls.nullCount > 0).map NullBuffer.bytes) data.len = .ok nulls ∧
      NullsKept data nulls := by
  unfold NullsKept
  cases hbitmap : data.nulls with
  | none =>
      have hzero : data.nullCount = 0 := by
        rw [ArrayData.nullCount, hbitmap]
        rfl
      exact ⟨none, rfl, if_pos hzero ▸ rfl⟩
  | some bitmap =>
      have hcount : data.nullCount = bitmap.nullCount := by
        rw [ArrayData.nullCount, hbitmap]
        rfl
      by_cases hzero : data.nullCount = 0
      · rw [Option.filter_some, if_neg (by simp [← hcount, hzero])]
        exact ⟨none, rfl, if_pos hzero ▸ rfl⟩
      · obtain ⟨hlen, hbytes⟩ := L.nulls_length h hbitmap
        rw [Option.filter_some, if_pos (by rw [decide_eq_true_eq]; omega), Option.map_some, decodeValidity]
        simp only [hbytes, Nat.lt_irrefl, if_false]
        refine ⟨_, rfl, ?_⟩
        rw [if_neg hzero]
        exact ⟨bitmap, _, rfl, rfl, List.take_of_length_le hbytes.le, hlen.symm⟩

theorem buildChildren_built {children : List ArrayData} {columns : List ColumnData}
    (h : List.Forall₂ (fun child column => ∃ built, buildData K column child.dataType column.len = .ok built ∧ M.Same child built)
      children columns) :
    ∃ built, buildChildren K columns (children.map ArrayData.dataType) = .ok built ∧ List.Forall₂ M.Same children built := by
  induction h with
  | nil => exact ⟨[], by rw [List.map_nil, buildChildren]; rfl; simp, .nil⟩
  | cons hone _ ih =>
      obtain ⟨child, hchild, hsame⟩ := hone
      obtain ⟨built, hbuilt, hall⟩ := ih
      refine ⟨child :: built, ?_, .cons hsame hall⟩
      rw [List.map_cons, buildChildren, hchild, hbuilt]
      rfl

theorem buildChildren_each {children : List ArrayData} {columns : List ColumnData} (hlength : children.length = columns.length)
    {below : List ArrayData} (h : buildChildren K columns (children.map ArrayData.dataType) = .ok below) :
    List.Forall₂ (fun child column => ∃ built, buildData K column child.dataType column.len = .ok built) children columns := by
  induction children generalizing columns below with
  | nil =>
      obtain rfl := List.length_eq_zero_iff.mp hlength.symm
      exact .nil
  | cons child children ih =>
      cases columns with
      | nil => cases hlength
      | cons column columns =>
          rw [List.map_cons, buildChildren] at h
          obtain ⟨built, hbuilt, h⟩ := bind_eq_ok.mp h
          obtain ⟨rest, hrest, -⟩ := bind_eq_ok.mp h
          exact .cons ⟨built, hbuilt⟩ (ih (Nat.succ.inj hlength) hrest)

/-- An array without views comes back from the log as it was. The induction is on how deep the array goes. -/
theorem buildData_encoded (L : K.Lawful M) (hjoins : K.JoinsFromZero) (depth : Nat) : ∀ {array : ArrayData} {column : ColumnData},
    M.Valid array → encodeArrayTo K depth array = .ok column → array.dataType.ViewFree →
    column.len = array.len ∧ ∃ built, buildData K column array.dataType column.len = .ok built ∧ M.Same array built := by
  induction depth with
  | zero =>
      intro array column _ hencoded
      cases hencoded
  | succ depth ih =>
      intro array column hvalid hencoded hfree
      obtain ⟨data, children, hdata, hchildren, rfl⟩ := encodeArrayTo_ok hencoded
      obtain ⟨data', hdata', hsame, hzero⟩ := fromZero_same L hjoins hvalid
      obtain rfl := Except.ok.inj (hdata.symm.trans hdata')
      obtain ⟨hself, hbelow⟩ := DataType.viewFree_iff.mp hfree
      obtain ⟨htypes, hvalidBelow⟩ := L.children hsame.valid
      obtain ⟨nulls, hnulls, hkept⟩ := decodeValidity_kept L hsame.valid
      have hall := mapM_ok hchildren
      have hfreeBelow : ∀ child ∈ data.children, M.Valid child ∧ child.dataType.ViewFree := by
        intro child hchild
        refine ⟨hvalidBelow child hchild, hbelow _ ?_⟩
        rw [← hsame.dataType, ← htypes]
        exact List.mem_map_of_mem hchild
      have heach := ((List.forall₂_and_left _ _).mpr ⟨hfreeBelow, hall⟩).imp fun child column hchild =>
        (ih hchild.1.1 hchild.2 hchild.1.2).2
      obtain ⟨below, hbuilt, hsameBelow⟩ := buildChildren_built heach
      obtain ⟨final, hfinal, hfinalSame⟩ := L.build hsame.valid hkept hsameBelow
      rw [hzero] at hfinal
      refine ⟨L.same_len hvalid hsame, final, ?_, ⟨hfinalSame.valid, hfinalSame.dataType.trans hsame.dataType,
        hfinalSame.values.trans hsame.values, hfinalSame.nullCount.trans hsame.nullCount⟩⟩
      rw [← hsame.dataType] at hself ⊢
      have hcount : children.length = data.dataType.childDataTypes.length := by
        rw [← htypes, List.length_map, hall.length_eq]
      rw [htypes] at hbuilt
      rw [buildData, hnulls, childDataTypes_eq hself]
      simp only [bind, Except.bind, hcount, ne_eq, not_true_eq_false, if_false, hbuilt, hfinal]
      rfl

/-- What comes back from the log had no views. -/
theorem buildData_viewFree (L : K.Lawful M) (hjoins : K.JoinsFromZero) (depth : Nat) :
    ∀ {array built : ArrayData} {column : ColumnData}, M.Valid array → encodeArrayTo K depth array = .ok column →
    buildData K column array.dataType column.len = .ok built → array.dataType.ViewFree := by
  induction depth with
  | zero =>
      intro array built column _ hencoded
      cases hencoded
  | succ depth ih =>
      intro array built column hvalid hencoded hbuilt
      obtain ⟨data, children, hdata, hchildren, rfl⟩ := encodeArrayTo_ok hencoded
      obtain ⟨data', hdata', hsame, -⟩ := fromZero_same L hjoins hvalid
      obtain rfl := Except.ok.inj (hdata.symm.trans hdata')
      obtain ⟨htypes, hvalidBelow⟩ := L.children hsame.valid
      have hall := mapM_ok hchildren
      rw [← hsame.dataType] at hbuilt ⊢
      rw [buildData] at hbuilt
      obtain ⟨nulls, -, hbuilt⟩ := bind_eq_ok.mp hbuilt
      dsimp only at hbuilt
      split at hbuilt
      · cases hbuilt
      · next hcount =>
          rw [not_not, ← hall.length_eq, ← List.length_map ArrayData.dataType, htypes] at hcount
          have hself := (length_childDataTypes _).mp hcount.symm
          obtain ⟨below, hbelow, -⟩ := bind_eq_ok.mp hbuilt
          rw [childDataTypes_eq hself, ← htypes] at hbelow
          have heach := buildChildren_each hall.length_eq hbelow
          refine DataType.viewFree_iff.mpr ⟨hself, fun type htype => ?_⟩
          rw [← htypes] at htype
          obtain ⟨child, hchild, rfl⟩ := List.mem_map.mp htype
          obtain ⟨index, hindex⟩ := List.getElem?_of_mem hchild
          obtain ⟨column, hcolumn, hencodes⟩ := forall₂_getElem?_left hall hindex
          obtain ⟨column', hcolumn', array', harray'⟩ := forall₂_getElem?_left heach hindex
          obtain rfl := Option.some.inj (hcolumn.symm.trans hcolumn')
          exact ih (hvalidBelow child hchild) hencodes harray'

theorem encode_ok {batch : RecordBatch} {encoded : BatchData} (h : encode K batch = .ok encoded) :
    encoded.rowCount = batch.numRows ∧ List.Forall₂ (fun array column => encodeArray K array = .ok column) batch.columns encoded.columns := by
  obtain ⟨columns, hcolumns, h⟩ := bind_eq_ok.mp h
  obtain rfl := Except.ok.inj h
  exact ⟨rfl, mapM_ok hcolumns⟩

theorem decodeField_ok {archived : BatchData} {schema : Schema DataType} {index : Nat} {entry : Field DataType × ArrayData}
    (h : decodeField K archived schema index = .ok entry) :
    schema.fields[index]? = some entry.1 ∧ ∃ column, archived.columns[index]? = some column ∧
      buildData K column entry.1.dataType column.len = .ok entry.2 := by
  unfold decodeField at h
  split at h
  · cases h
  · next field hfield =>
      split at h
      · cases h
      · next column hcolumn =>
          obtain ⟨array, harray, h⟩ := bind_eq_ok.mp h
          obtain rfl := Except.ok.inj h
          unfold decodeArray at harray
          split at harray
          · cases harray
          · exact ⟨hfield, column, hcolumn, harray⟩

variable {batch : RecordBatch}

/-- The batch comes back from the log as it was. -/
def RoundTrips (K : Kit) (M : Meaning ν) (batch : RecordBatch) : Prop :=
  ∃ encoded back, encode K batch = .ok encoded ∧ decode K encoded batch.schema none = .ok back ∧
    back.schema = batch.schema ∧ back.numRows = batch.numRows ∧ List.Forall₂ M.Same batch.columns back.columns

theorem encode_total (L : K.Lawful M) (hjoins : K.JoinsFromZero) (h : batch.Sound M batch.schema) :
    ∃ encoded, encode K batch = .ok encoded := by
  have hone : ∀ array ∈ batch.columns, ∃ column, encodeArray K array = .ok column := by
    intro array harray
    obtain ⟨index, hindex⟩ := List.getElem?_of_mem harray
    obtain ⟨field, -, hcolumn⟩ := forall₂_getElem?_left h hindex
    exact encodeArrayTo_total L hjoins _ hcolumn.valid le_rfl
  obtain ⟨columns, hcolumns⟩ := mapM_total hone
  rw [encode, hcolumns]
  exact ⟨_, rfl⟩

theorem decodeField_encoded (L : K.Lawful M) (hjoins : K.JoinsFromZero) (h : batch.Sound M batch.schema) {encoded : BatchData}
    (hencoded : encode K batch = .ok encoded) (hfree : ∀ field ∈ batch.schema.fields, field.dataType.ViewFree) {index : Nat}
    (hindex : index < batch.schema.fields.length) :
    ∃ entry, decodeField K encoded batch.schema index = .ok entry ∧ batch.schema.fields[index]? = some entry.1 ∧
      ∃ array, batch.columns[index]? = some array ∧ M.Same array entry.2 := by
  obtain ⟨hrows, hcolumns⟩ := encode_ok hencoded
  have hfield := List.getElem?_eq_getElem hindex
  generalize batch.schema.fields[index] = field at hfield
  obtain ⟨array, harray, hsound⟩ := forall₂_getElem? h hfield
  obtain ⟨column, hcolumn, hone⟩ := forall₂_getElem?_left hcolumns harray
  have hviews : array.dataType.ViewFree := hsound.dataType ▸ hfree field (List.mem_of_getElem? hfield)
  obtain ⟨hlen, built, hbuilt, hsame⟩ := buildData_encoded L hjoins _ hsound.valid hone hviews
  refine ⟨(field, built), ?_, hfield, array, harray, hsame⟩
  rw [hsound.dataType] at hbuilt
  simp only [decodeField, hfield, hcolumn, decodeArray, hlen, hsound.len, hrows, ne_eq, not_true_eq_false, if_false]
  rw [← hsound.len, ← hlen, hbuilt]
  rfl

/-- Entries that name the fields and hold the columns, place by place. -/
theorem entries_fields {entries : List (Field DataType × ArrayData)}
    (h : List.Forall₂ (fun index entry => batch.schema.fields[index]? = some entry.1 ∧
      ∃ array, batch.columns[index]? = some array ∧ M.Same array entry.2) (List.range batch.schema.fields.length) entries)
    (hcount : batch.columns.length = batch.schema.fields.length) :
    entries.map Prod.fst = batch.schema.fields ∧ List.Forall₂ M.Same batch.columns (entries.map Prod.snd) := by
  have hlength : entries.length = batch.schema.fields.length := by rw [← h.length_eq, List.length_range]
  have hplaces : ∀ index (hindex : index < entries.length), batch.schema.fields[index]? = some (entries.get ⟨index, hindex⟩).1 ∧
      ∃ array, batch.columns[index]? = some array ∧ M.Same array (entries.get ⟨index, hindex⟩).2 := by
    intro index hindex
    obtain ⟨place, hplace, hentry⟩ := forall₂_getElem? h (List.getElem?_eq_getElem hindex)
    obtain rfl : index = place := by
      rw [List.getElem?_range (hlength ▸ hindex)] at hplace
      exact Option.some.inj hplace
    exact hentry
  constructor
  · apply List.ext_get
    · rw [List.length_map, hlength]
    · intro index hentry hfield
      rw [List.length_map] at hentry
      have hsome := (hplaces index hentry).1
      rw [List.getElem?_eq_getElem hfield] at hsome
      simpa using (Option.some.inj hsome).symm
  · refine List.forall₂_iff_get.mpr ⟨by rw [List.length_map, hlength, hcount], fun index hcolumn hentry => ?_⟩
    rw [List.length_map] at hentry
    obtain ⟨array, harray, hsame⟩ := (hplaces index hentry).2
    rw [List.getElem?_eq_getElem hcolumn] at harray
    simpa [Option.some.inj harray] using hsame

theorem tryNew_schema {schema : Schema DataType} {columns : List ArrayData} {rowCount : Option Nat} {back : RecordBatch}
    (h : RecordBatch.tryNew schema columns rowCount = .ok back) : back.schema = schema := by
  unfold RecordBatch.tryNew at h
  split at h
  · cases h
  · split at h
    · cases h
    · repeat' split at h
      all_goals cases h
      rfl

/-- A batch without views comes back, under its schema without the metadata. -/
theorem decode_encoded (L : K.Lawful M) (hjoins : K.JoinsFromZero) (h : batch.Sound M batch.schema) {encoded : BatchData}
    (hencoded : encode K batch = .ok encoded) (hfree : ∀ field ∈ batch.schema.fields, field.dataType.ViewFree) :
    ∃ columns, decode K encoded batch.schema none = .ok ⟨⟨batch.schema.fields, []⟩, columns, batch.numRows⟩ ∧
      List.Forall₂ M.Same batch.columns columns := by
  obtain ⟨hrows, hcolumns⟩ := encode_ok hencoded
  obtain ⟨entries, hentries, hall⟩ := mapM_forall₂ fun index (hindex : index ∈ List.range batch.schema.fields.length) =>
    decodeField_encoded L hjoins h hencoded hfree (List.mem_range.mp hindex)
  obtain ⟨hfields, hsame⟩ := entries_fields hall h.length_eq
  have hholds : List.Forall₂ (fun field column => ∃ values, HoldsValues M field values column ∧ values.length = batch.numRows)
      batch.schema.fields (entries.map Prod.snd) := by
    refine List.forall₂_iff_get.mpr ⟨by rw [← h.length_eq, hsame.length_eq], fun index hfield hcolumn => ?_⟩
    obtain ⟨array, harray, hsound⟩ := forall₂_getElem? h (List.getElem?_eq_getElem hfield)
    obtain ⟨array', harray', hone⟩ := forall₂_getElem? hsame (List.getElem?_eq_getElem hcolumn)
    obtain rfl := Option.some.inj (harray.symm.trans harray')
    refine ⟨M.values array, ⟨hone.valid, hone.dataType.trans hsound.dataType, hone.values, fun hnullable => ?_⟩, ?_⟩
    · exact hone.nullCount.trans (hsound.nullCount hnullable)
    · rw [L.length_values hsound.valid, hsound.len]
  refine ⟨entries.map Prod.snd, ?_, hsame⟩
  rw [decode, if_neg (not_not.mpr (by rw [← hcolumns.length_eq, h.length_eq]))]
  simp only [bind, Except.bind, Option.getD_none, hentries, hfields, hrows, tryNew_ok L hholds, Outcome.ofExcept_ok]

/-- What comes back from the log had no views, and no metadata where it is what was logged. -/
theorem decode_viewFree (L : K.Lawful M) (hjoins : K.JoinsFromZero) (h : batch.Sound M batch.schema) {encoded : BatchData}
    (hencoded : encode K batch = .ok encoded) {back : RecordBatch} (hback : decode K encoded batch.schema none = .ok back) :
    back.schema.metadata = [] ∧ ∀ field ∈ batch.schema.fields, field.dataType.ViewFree := by
  unfold decode at hback
  split at hback
  · cases hback
  · obtain ⟨entries, hentries, hback⟩ := bind_eq_ok.mp hback
    rw [Outcome.ofExcept_eq_ok] at hback
    refine ⟨by rw [tryNew_schema hback], fun field hfield => ?_⟩
    obtain ⟨index, hindex⟩ := List.getElem?_of_mem hfield
    have hplace : index ∈ List.range batch.schema.fields.length :=
      List.mem_range.mpr (List.getElem?_eq_some_iff.mp hindex).1
    obtain ⟨entry, -, hentry⟩ := mapM_exists hentries hplace
    obtain ⟨hsame, column, hcolumn, hbuilt⟩ := decodeField_ok hentry
    obtain rfl := Option.some.inj (hindex.symm.trans hsame)
    obtain ⟨array, harray, hone⟩ := forall₂_getElem? (encode_ok hencoded).2 hcolumn
    obtain ⟨field', hfield', hsound⟩ := forall₂_getElem?_left h harray
    obtain rfl := Option.some.inj (hindex.symm.trans hfield')
    rw [← hsound.dataType] at hbuilt ⊢
    exact buildData_viewFree L hjoins _ hsound.valid hone hbuilt

/-- Every batch is laid out for the log. It comes back as it was just if no list in it is laid out as views, for which the log
counts no child, and if its schema has no metadata, which the log does not keep. -/
theorem logged_batches_round_trip (L : K.Lawful M) (hjoins : K.JoinsFromZero) (h : batch.Sound M batch.schema) :
    (∀ type, childDataTypes type = type.childDataTypes ↔ type.isListView = false) ∧
      (∃ encoded, encode K batch = .ok encoded) ∧
      (RoundTrips K M batch ↔ batch.schema.metadata = [] ∧ ∀ field ∈ batch.schema.fields, field.dataType.ViewFree) := by
  have htotal := encode_total L hjoins h
  refine ⟨fun type => ⟨fun heq => (length_childDataTypes type).mp (congrArg _ heq), childDataTypes_eq⟩, htotal, ?_, ?_⟩
  · rintro ⟨encoded, back, hencoded, hback, hschema, -⟩
    obtain ⟨hmetadata, hfree⟩ := decode_viewFree L hjoins h hencoded hback
    exact ⟨hschema ▸ hmetadata, hfree⟩
  · rintro ⟨hmetadata, hfree⟩
    obtain ⟨encoded, hencoded⟩ := htotal
    obtain ⟨columns, hback, hsame⟩ := decode_encoded L hjoins h hencoded hfree
    exact ⟨encoded, _, hencoded, hback, congrArg (Schema.mk batch.schema.fields) hmetadata.symm, rfl, hsame⟩

end RoundTrip

section Views

/-- An archive that fails: the log keeps no segments. -/
def unarchived : Kit :=
  let failure {α : Type} : Except Error α := .error (.corrupt "no archive")
  plainKit (fun _ => failure) (fun _ => failure) (fun _ => failure) fun _ => failure

theorem unarchived_lawful : unarchived.Lawful plainMeaning := plainKit_lawful (fun h => nomatch h) fun h => nomatch h

/-- What the joining of numbers, or of nulls, makes begins at index zero. -/
theorem unarchived_joinsFromZero : unarchived.JoinsFromZero := by
  intro parts joined _ hjoined
  simp only [unarchived, plainKit] at hjoined
  split at hjoined
  · split at hjoined
    · exact Except.ok.inj hjoined ▸ rfl
    · cases hjoined
  · split at hjoined
    · exact Except.ok.inj hjoined ▸ rfl
    · cases hjoined

/-- Three numbers come back. -/
theorem three_numbers_come_back : RoundTrips unarchived plainMeaning ⟨numberSchema, [numbers [7, 7, 7]], 3⟩ := by
  have hsound : RecordBatch.Sound plainMeaning numberSchema ⟨numberSchema, [numbers [7, 7, 7]], 3⟩ :=
    .cons ⟨plain_numbers (by decide), rfl, rfl, fun _ => rfl⟩ .nil
  obtain ⟨-, -, hiff⟩ := logged_batches_round_trip unarchived_lawful unarchived_joinsFromZero hsound
  refine hiff.mpr ⟨rfl, fun field hfield => DataType.viewFree_iff.mpr ?_⟩
  rw [List.mem_singleton.mp hfield]
  exact ⟨rfl, fun child hchild => absurd hchild List.not_mem_nil⟩

/-- One list of two numbers, laid out as a view. -/
def listViewBatch : RecordBatch :=
  let type : DataType := .list .listView ⟨"item", .leaf .int8, true⟩
  ⟨⟨[⟨"value", type, false⟩], []⟩, [⟨type, 1, 0, none, [[0, 0, 0, 0], [2, 0, 0, 0]], [numbers [7, 8]]⟩], 1⟩

/-- It is laid out for the log, and does not come back. -/
theorem list_view_lost : ∃ encoded, encode unarchived listViewBatch = .ok encoded ∧
    ∀ back, decode unarchived encoded listViewBatch.schema none ≠ .ok back :=
  ⟨_, rfl, fun _ h => nomatch h⟩

end Views

end Batchcodec

end Segment

end LocalTables
