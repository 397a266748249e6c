import LocalTables.Columnar.Groups
import LocalTables.Columnar.Valuecodec
import LocalTables.Lib.ByteBits

/-! Clustering (`columnar/zorder.rs`). A key is the first eight bytes of every cluster column, bit by bit in turn: it is
monotone in each of them. Rows are numbered over all batches, sorted by their keys, and gathered column by column. -/

namespace LocalTables

open OrderedCode ByteBits

section Interleave

/-- Write the first bits of a dimension to their places in a key of `count` dimensions. -/
def writeDimension (count dimension bits : Nat) (bytes key : Bytes) : Bytes :=
  (List.range bits).foldl (fun key bit =>
    if bytes.getD (bit / 8) 0 &&& (0x80 >>> UInt8.ofNat (bit % 8)) = 0 then key
    else setBit key (bit * count + dimension)) key

theorem writeDimension_succ (count dimension bits : Nat) (bytes key : Bytes) :
    writeDimension count dimension (bits + 1) bytes key =
      if bytes.getD (bits / 8) 0 &&& (0x80 >>> UInt8.ofNat (bits % 8)) = 0 then
        writeDimension count dimension bits bytes key
      else setBit (writeDimension count dimension bits bytes key) (bits * count + dimension) := by
  rw [writeDimension, List.range_succ, List.foldl_append]
  rfl

/-- A place belongs to one bit of one dimension. -/
theorem place_iff {count dimension : Nat} (hdimension : dimension < count) (bit p : Nat) :
    p = bit * count + dimension ↔ p % count = dimension ∧ p / count = bit := by
  constructor
  · rintro rfl
    rw [Nat.mul_comm, Nat.mul_add_mod, Nat.mul_add_div (by omega), Nat.mod_eq_of_lt hdimension,
      Nat.div_eq_of_lt hdimension]
    exact ⟨rfl, rfl⟩
  · rintro ⟨hmod, hdiv⟩
    rw [← hmod, ← hdiv, Nat.mul_comm, Nat.div_add_mod]

theorem length_writeDimension (count dimension bits : Nat) (bytes key : Bytes) :
    (writeDimension count dimension bits bytes key).length = key.length := by
  induction bits with
  | zero => rfl
  | succ bits ih =>
      rw [writeDimension_succ]
      split
      · exact ih
      · rw [length_setBit, ih]

theorem bit_writeDimension {count dimension : Nat} (hdimension : dimension < count) (bytes : Bytes) {bits : Nat}
    (hbits : bits ≤ dimBytes * 8) {key : Bytes} (hkey : key.length = dimBytes * count) (p : Nat) :
    bit (writeDimension count dimension bits bytes key) p =
      (bit key p || decide (p % count = dimension ∧ p / count < bits) && bit bytes (p / count)) := by
  induction bits with
  | zero => simp [writeDimension]
  | succ bits ih =>
      have hsofar := ih (by omega)
      have hmask := and_mask_eq_zero_iff (bytes.getD (bits / 8) 0) (Nat.mod_lt bits (by decide : 0 < 8))
      have hplace := place_iff hdimension bits p
      rw [writeDimension_succ]
      by_cases hzero : bytes.getD (bits / 8) 0 &&& (0x80 >>> UInt8.ofNat (bits % 8)) = 0
      · have hbit : bit bytes bits = false := hmask.mp hzero
        rw [if_pos hzero, hsofar]
        by_cases hhere : p / count = bits
        · rw [hhere, hbit, Bool.and_false, Bool.and_false]
        · congr 2
          rw [decide_eq_decide]
          omega
      · have hbit : bit bytes bits = true := Bool.eq_true_of_not_eq_false fun h => hzero (hmask.mpr h)
        have hinside : (bits * count + dimension) / 8 < (writeDimension count dimension bits bytes key).length := by
          have hlast : (bits + 1) * count ≤ dimBytes * 8 * count := Nat.mul_le_mul_right _ hbits
          rw [Nat.succ_mul] at hlast
          rw [length_writeDimension, hkey]
          simp only [dimBytes] at hlast ⊢
          omega
        rw [if_neg hzero, bit_setBit hinside, hsofar]
        by_cases hhere : p = bits * count + dimension
        · obtain ⟨hmod, hdiv⟩ := hplace.mp hhere
          rw [decide_eq_true hhere, Bool.true_or, hdiv, hbit, Bool.and_true,
            decide_eq_true ⟨hmod, Nat.lt_succ_self bits⟩, Bool.or_true]
        · have hother := hplace.not.mp hhere
          rw [decide_eq_false hhere, Bool.false_or]
          congr 2
          rw [decide_eq_decide]
          omega

/-- Write all dimensions, the first of them numbered `first`. -/
def writeDimensions (count first : Nat) (dimensions : List Bytes) (key : Bytes) : Bytes :=
  (dimensions.zipIdx first).foldl (fun key (bytes, dimension) =>
    writeDimension count dimension (dimBytes * 8) bytes key) key

theorem writeDimensions_cons (count first : Nat) (bytes : Bytes) (dimensions : List Bytes) (key : Bytes) :
    writeDimensions count first (bytes :: dimensions) key =
      writeDimensions count (first + 1) dimensions (writeDimension count first (dimBytes * 8) bytes key) := rfl

theorem length_writeDimensions (count first : Nat) (dimensions : List Bytes) (key : Bytes) :
    (writeDimensions count first dimensions key).length = key.length := by
  induction dimensions generalizing first key with
  | nil => rfl
  | cons bytes dimensions ih => rw [writeDimensions_cons, ih, length_writeDimension]

theorem bit_writeDimensions {count first : Nat} {dimensions : List Bytes} (hfirst : first + dimensions.length ≤ count)
    {key : Bytes} (hkey : key.length = dimBytes * count) {p : Nat} (hp : p / count < dimBytes * 8) :
    bit (writeDimensions count first dimensions key) p =
      (bit key p || decide (first ≤ p % count) && bit (dimensions.getD (p % count - first) []) (p / count)) := by
  induction dimensions generalizing first key with
  | nil => simp [writeDimensions, bit]
  | cons bytes dimensions ih =>
      rw [List.length_cons] at hfirst
      have hone := bit_writeDimension (by omega : first < count) bytes le_rfl hkey p
      rw [writeDimensions_cons, ih (by omega) ((length_writeDimension ..).trans hkey), hone]
      rcases Nat.lt_trichotomy (p % count) first with hlt | heq | hgt
      · rw [decide_eq_false (by omega : ¬(p % count = first ∧ p / count < dimBytes * 8)),
          decide_eq_false (by omega : ¬first + 1 ≤ p % count), decide_eq_false (by omega : ¬first ≤ p % count),
          Bool.false_and, Bool.false_and, Bool.false_and, Bool.or_false]
      · rw [decide_eq_true ⟨heq, hp⟩, decide_eq_false (by omega : ¬first + 1 ≤ p % count), decide_eq_true heq.ge, heq,
          Nat.sub_self, Bool.false_and, Bool.or_false]
        rfl
      · have hnext : p % count - first = p % count - (first + 1) + 1 := by omega
        rw [decide_eq_false (by omega : ¬(p % count = first ∧ p / count < dimBytes * 8)),
          decide_eq_true (by omega : first + 1 ≤ p % count), decide_eq_true hgt.le, hnext, Bool.false_and, Bool.or_false]
        rfl

theorem interleaveInto_eq (dimensions : List Bytes) :
    interleaveInto dimensions =
      writeDimensions dimensions.length 0 dimensions (List.replicate (dimBytes * dimensions.length) 0) := rfl

theorem length_interleaveInto (dimensions : List Bytes) :
    (interleaveInto dimensions).length = dimBytes * dimensions.length := by
  rw [interleaveInto_eq, length_writeDimensions, List.length_replicate]

/-- Every bit of a key is one bit of one dimension. -/
theorem bit_interleaveInto (dimensions : List Bytes) {p : Nat} (hp : p < dimBytes * 8 * dimensions.length) :
    bit (interleaveInto dimensions) p = bit (dimensions.getD (p % dimensions.length) []) (p / dimensions.length) := by
  have hzero : bit (List.replicate (dimBytes * dimensions.length) 0) p = false := by
    rw [bit, List.getD_eq_getElem?_getD, List.getElem?_replicate]
    split <;> simp
  have hplace : p / dimensions.length < dimBytes * 8 := Nat.div_lt_of_lt_mul (by rw [Nat.mul_comm]; exact hp)
  rw [interleaveInto_eq, bit_writeDimensions (by omega) (List.length_replicate ..) hplace, hzero, Bool.false_or,
    Nat.sub_zero, decide_eq_true (Nat.zero_le _), Bool.true_and]

theorem place_lt {count p : Nat} (hp : p < dimBytes * 8 * count) : p % count < count ∧ p / count < dimBytes * 8 := by
  have hpos : 0 < count := by
    rcases Nat.eq_zero_or_pos count with rfl | hpos
    · rw [Nat.mul_zero] at hp
      exact absurd hp (Nat.not_lt_zero p)
    · exact hpos
  exact ⟨Nat.mod_lt _ hpos, Nat.div_lt_of_lt_mul (by rw [Nat.mul_comm]; exact hp)⟩

theorem eight_length_interleaveInto (dimensions : List Bytes) :
    8 * (interleaveInto dimensions).length = dimBytes * 8 * dimensions.length := by
  rw [length_interleaveInto, Nat.mul_comm dimBytes 8, Nat.mul_assoc]

theorem length_getD {dimensions : List Bytes} (h : ∀ bytes ∈ dimensions, bytes.length = dimBytes) {index : Nat}
    (hindex : index < dimensions.length) : (dimensions.getD index []).length = dimBytes := by
  rw [List.getD_eq_getElem?_getD, List.getElem?_eq_getElem hindex, Option.getD_some]
  exact h _ (List.getElem_mem hindex)

/-- Keys of dimensions that are each at most the other's compare the same way. -/
theorem interleaveInto_isLE {left right : List Bytes} (hleft : ∀ bytes ∈ left, bytes.length = dimBytes)
    (hright : ∀ bytes ∈ right, bytes.length = dimBytes)
    (hle : List.Forall₂ (fun a b : Bytes => (compare a b).isLE = true) left right) :
    (compare (interleaveInto left) (interleaveInto right)).isLE = true := by
  have hlength : left.length = right.length := hle.length_eq
  have hbound := eight_length_interleaveInto left
  have hpast : ∀ {words : List Bytes} {index : Nat}, ¬index < words.length → words.getD index [] = [] := by
    intro words index hindex
    rw [List.getD_eq_getElem?_getD, List.getElem?_eq_none (Nat.le_of_not_lt hindex)]
    rfl
  refine isLE_interleaved (fun index => left.getD index []) (fun index => right.getD index [])
    (fun p => (p % left.length, p / left.length)) ?_ (fun index => ?_) (fun p hp => ?_) (fun p hp => ?_)
    (fun p hp => ?_) (fun p hp b hb => ?_) fun index => ?_
  · rw [length_interleaveInto, length_interleaveInto, hlength]
  · by_cases hindex : index < left.length
    · rw [length_getD hleft hindex, length_getD hright (hlength ▸ hindex)]
    · rw [hpast hindex, hpast (hlength ▸ hindex)]
  · exact bit_interleaveInto left (hbound ▸ hp)
  · rw [hlength] at hbound ⊢
    exact bit_interleaveInto right (hbound ▸ hp)
  · obtain ⟨hdimension, hbit⟩ := place_lt (hbound ▸ hp)
    dsimp only
    rw [length_getD hleft hdimension]
    omega
  · obtain ⟨hdimension, -⟩ := place_lt (hbound ▸ hp)
    refine ⟨b * left.length + p % left.length, ?_, ?_⟩
    · calc b * left.length + p % left.length
        _ < p / left.length * left.length + p % left.length :=
          Nat.add_lt_add_right (Nat.mul_lt_mul_of_pos_right hb (by omega)) _
        _ = p := by rw [Nat.mul_comm, Nat.div_add_mod]
    · obtain ⟨hmod, hdiv⟩ := (place_iff hdimension b _).mp rfl
      rw [hmod, hdiv]
  · by_cases hindex : index < left.length
    · have hget := hle.get hindex (hlength ▸ hindex)
      rw [List.getD_eq_getElem?_getD, List.getD_eq_getElem?_getD, List.getElem?_eq_getElem hindex,
        List.getElem?_eq_getElem (hlength ▸ hindex)]
      exact hget
    · rw [hpast hindex, hpast (hlength ▸ hindex)]
      rfl

/-- Dimensions of eight bytes can be told from their key. -/
theorem interleaveInto_injective {left right : List Bytes} (hlength : left.length = right.length)
    (hleft : ∀ bytes ∈ left, bytes.length = dimBytes) (hright : ∀ bytes ∈ right, bytes.length = dimBytes)
    (h : interleaveInto left = interleaveInto right) : left = right := by
  refine List.ext_getElem hlength fun index hindex hindex' => ?_
  have hget : ∀ {words : List Bytes} (hindex : index < words.length), words.getD index [] = words[index] := by
    intro words hindex
    rw [List.getD_eq_getElem?_getD, List.getElem?_eq_getElem hindex]
    rfl
  refine eq_of_bits ((hleft _ (List.getElem_mem _)).trans (hright _ (List.getElem_mem _)).symm) fun b hb => ?_
  rw [hleft _ (List.getElem_mem _)] at hb
  have hplace : b * left.length + index < dimBytes * 8 * left.length := by
    have hlast : (b + 1) * left.length ≤ dimBytes * 8 * left.length := Nat.mul_le_mul_right _ (by omega)
    rw [Nat.succ_mul] at hlast
    omega
  obtain ⟨hmod, hdiv⟩ := (place_iff hindex b _).mp rfl
  have hbits := bit_interleaveInto left hplace
  rw [h, bit_interleaveInto right (hlength ▸ hplace), ← hlength, hmod, hdiv, hget hindex, hget hindex'] at hbits
  exact hbits.symm

end Interleave

section Keys

/-- An environment whose values are Arrow's, encoded as keys. -/
def Env.withValuecodec (env : Env DataType (Option Value)) : Env DataType (Option Value) :=
  { env with null := none, isNull := Option.isNone, isEncodable := LocalTables.isEncodable, encodeValue := LocalTables.encodeValue }

/-- The eight bytes a value of the type contributes to a key. -/
def LeafType.dimension (type : LeafType) : Option Value → Bytes
  | none => List.replicate dimBytes 0
  | some value => padded 0 dimBytes ((type.code (some value)).drop 1)

theorem LeafType.length_dimension (type : LeafType) (value : Option Value) : (type.dimension value).length = dimBytes := by
  cases value with
  | none => exact List.length_replicate ..
  | some value => exact length_padded ..

theorem zero_isLE (byte : UInt8) : (compare 0 byte).isLE = true := by
  rw [Std.isLE_compare]
  exact UInt8.zero_le

variable {type : LeafType} {left right : Option Value}

theorem dimensionBytes_eq (env : Env DataType (Option Value)) (hkey : type.keyForm ≠ none) (h : type.HoldsAt left) :
    dimensionBytes env.withValuecodec (.leaf type) left = .ok (type.dimension left) := by
  cases left with
  | none => rfl
  | some value =>
      obtain ⟨form, hform⟩ := Option.ne_none_iff_exists'.mp hkey
      have hencoded : encodeValue (.leaf type) (some value) = .ok (type.code (some value)) := by
        rw [encodeValue, hform, LeafType.code, hform]
        dsimp only
        rw [KeyForm.write_eq (LeafType.holds_keyForm hform (h value rfl))]
        rfl
      rw [dimensionBytes]
      simp only [Env.withValuecodec, Option.isNone_some, Bool.false_eq_true, if_false, hencoded]
      rfl

/-- What a value contributes follows the order of the values. -/
theorem LeafType.dimension_isLE (hkey : type.keyForm ≠ none) (hleft : type.HoldsAt left) (hright : type.HoldsAt right)
    (h : (type.compare left right).isLE = true) :
    (Ord.compare (type.dimension left) (type.dimension right)).isLE = true := by
  cases left with
  | none => exact replicate_isLE zero_isLE (type.length_dimension right)
  | some a =>
      cases right with
      | none => cases h
      | some b =>
          refine padded_isLE zero_isLE dimBytes ?_
          rw [← (LeafType.orders hkey).compare_eq hleft hright] at h
          exact h

/-- A column of the schema has an encodable type. -/
def Schema.KeyColumn (schema : Schema DataType) (column : Nat) (type : LeafType) : Prop :=
  type.keyForm ≠ none ∧ ∃ field, schema.fields[column]? = some field ∧ field.dataType = .leaf type

/-- What a column contributes to the key of a row. -/
def dimensionOf (schema : Schema DataType) (row : Row (Option Value)) (column : Nat) : Bytes :=
  match schema.fields[column]? with
  | some ⟨_, .leaf type, _⟩ => type.dimension (row.getD column none)
  | _ => []

theorem Schema.KeyColumn.dimensionOf {schema : Schema DataType} {column : Nat} (h : schema.KeyColumn column type)
    (row : Row (Option Value)) : dimensionOf schema row column = type.dimension (row.getD column none) := by
  obtain ⟨-, ⟨name, dataType, nullable⟩, hfield, htype⟩ := h
  obtain rfl : dataType = .leaf type := htype
  rw [LocalTables.dimensionOf, hfield]

theorem length_dimensions {schema : Schema DataType} {columns : List Nat}
    (h : ∀ column ∈ columns, ∃ type, schema.KeyColumn column type) (row : Row (Option Value)) :
    ∀ bytes ∈ columns.map (dimensionOf schema row), bytes.length = dimBytes := by
  intro bytes hbytes
  obtain ⟨column, hcolumn, rfl⟩ := List.mem_map.mp hbytes
  obtain ⟨type, hkey⟩ := h column hcolumn
  rw [hkey.dimensionOf]
  exact type.length_dimension _

/-- A row whose cluster columns hold values of encodable types has a key. -/
theorem zorderKey_eq (env : Env DataType (Option Value)) {schema : Schema DataType} {columns : List Nat}
    (row : Row (Option Value))
    (h : ∀ column ∈ columns, ∃ type, schema.KeyColumn column type ∧ type.HoldsAt (row.getD column none)) :
    zorderKey env.withValuecodec schema columns row = .ok (interleaveInto (columns.map (dimensionOf schema row))) := by
  rw [zorderKey, mapM_eq_ok (g := dimensionOf schema row) fun column hcolumn => ?_]
  · rfl
  · obtain ⟨type, hkey, hholds⟩ := h column hcolumn
    obtain ⟨hform, field, hfield, htype⟩ := hkey
    rw [hfield]
    dsimp only
    rw [htype]
    refine (dimensionBytes_eq env hform hholds).trans ?_
    rw [Schema.KeyColumn.dimensionOf ⟨hform, field, hfield, htype⟩]

/-- What the keys promise: they are the dimensions of the cluster columns interleaved, they follow the values of these columns,
and interleaving loses no bit. -/
structure KeysFollowValues : Prop where
  monotone : ∀ (env : Env DataType (Option Value)) (schema : Schema DataType) (columns : List Nat)
    (r s : Row (Option Value)), (∀ column ∈ columns, ∃ type, schema.KeyColumn column type ∧
      type.HoldsAt (r.getD column none) ∧ type.HoldsAt (s.getD column none) ∧
        (type.compare (r.getD column none) (s.getD column none)).isLE = true) →
    ∃ a b, zorderKey env.withValuecodec schema columns r = .ok a ∧ a = interleaveInto (columns.map (dimensionOf schema r)) ∧
      zorderKey env.withValuecodec schema columns s = .ok b ∧ b = interleaveInto (columns.map (dimensionOf schema s)) ∧
      (∀ column ∈ columns, (dimensionOf schema r column).length = dimBytes ∧ (dimensionOf schema s column).length = dimBytes) ∧
      (compare a b).isLE = true
  injective : ∀ left right : List Bytes, left.length = right.length → (∀ bytes ∈ left, bytes.length = dimBytes) →
    (∀ bytes ∈ right, bytes.length = dimBytes) → interleaveInto left = interleaveInto right → left = right
  once : ∀ dimensions : List Bytes, (interleaveInto dimensions).length = dimBytes * dimensions.length ∧
    ∀ p < 8 * (interleaveInto dimensions).length, ∃! source : Nat × Nat,
      (source.1 < dimensions.length ∧ source.2 < dimBytes * 8 ∧ source.2 * dimensions.length + source.1 = p) ∧
        bit (interleaveInto dimensions) p = bit (dimensions.getD source.1 []) source.2

theorem zorder_keys_follow_values : KeysFollowValues where
  monotone env schema columns r s h := by
    have hr := zorderKey_eq env r fun column hcolumn =>
      (h column hcolumn).imp fun type htype => ⟨htype.1, htype.2.1⟩
    have hs := zorderKey_eq env s fun column hcolumn =>
      (h column hcolumn).imp fun type htype => ⟨htype.1, htype.2.2.1⟩
    have hkeys : ∀ column ∈ columns, ∃ type, schema.KeyColumn column type :=
      fun column hcolumn => (h column hcolumn).imp fun type htype => htype.1
    have hlengths := fun row => List.forall_mem_map.mp (length_dimensions hkeys row)
    refine ⟨_, _, hr, rfl, hs, rfl, fun column hcolumn => ⟨hlengths r column hcolumn, hlengths s column hcolumn⟩, ?_⟩
    refine interleaveInto_isLE (length_dimensions hkeys r) (length_dimensions hkeys s) ?_
    rw [List.forall₂_map_left_iff, List.forall₂_map_right_iff, List.forall₂_same]
    intro column hcolumn
    obtain ⟨type, hkey, hr, hs, hle⟩ := h column hcolumn
    rw [hkey.dimensionOf, hkey.dimensionOf]
    exact LeafType.dimension_isLE hkey.1 hr hs hle
  injective left right hlength hleft hright h := interleaveInto_injective hlength hleft hright h
  once dimensions := by
    refine ⟨length_interleaveInto dimensions, fun p hp => ?_⟩
    rw [eight_length_interleaveInto] at hp
    obtain ⟨hdimension, hbit⟩ := place_lt hp
    refine ⟨(p % dimensions.length, p / dimensions.length),
      ⟨⟨hdimension, hbit, ((place_iff hdimension _ p).mpr ⟨rfl, rfl⟩).symm⟩, bit_interleaveInto dimensions hp⟩, ?_⟩
    rintro ⟨dimension, b⟩ ⟨⟨hlt, -, hplace⟩, -⟩
    obtain ⟨hmod, hdiv⟩ := (place_iff hlt b p).mp hplace.symm
    rw [hmod, hdiv]

/-- The bits of two dimensions in turn, the leading ones first. -/
example : interleaveInto [[0x80, 0, 0, 0, 0, 0, 0, 1], [0x40, 0, 0, 0, 0, 0, 0, 0]] =
    [0x90, 0, 0, 0, 0, 0, 0, 0, 0, 0, 0, 0, 0, 0, 0, 2] := by decide +kernel

end Keys

/-! Rows by number, by batch and place, and by the slot of their key. -/

namespace Zorder

variable {τ ν : Type} (env : Env τ ν)

/-- A column of a batch. -/
def column (batch : RecordBatch τ ν) (index : Nat) : List ν := batch.rows.map fun row => row.getD index env.null

/-- What one column contributes to the key of a row of the batch. -/
def dimensionAt (batch : RecordBatch τ ν) (index row : Nat) : Except Error Bytes :=
  match batch.fields[index]? with
  | some field => dimensionBytes env field.dataType ((column env batch index).getD row env.null)
  | none => throw (.invalidArgument s!"column {index} is out of range")

/-- Where each global row number lives: its batch, and its row there. -/
def places (batches : List (RecordBatch τ ν)) : List (Nat × Nat) :=
  batches.zipIdx.flatMap fun (batch, index) => (List.range batch.numRows).map fun row => (index, row)

/-- The keys of all rows in one buffer, filled slot by slot. -/
def keysOf (batches : List (RecordBatch τ ν)) (columns : List Nat) : Except Error Bytes :=
  batches.foldlM (fun keys batch => (List.range batch.numRows).foldlM (fun keys row => do
    let dimensions ← columns.mapM fun index => dimensionAt env batch index row
    return keys ++ interleaveInto dimensions) keys) []

/-- Arrow's `interleave`: the values named by array and place. -/
def interleave (arrays : List (List ν)) (picks : List (Nat × Nat)) : Except Error (List ν) :=
  picks.mapM fun pick =>
    match (arrays[pick.1]?).bind (·[pick.2]?) with
    | some value => .ok value
    | none => .error (.arrow "an index is out of bounds")

/-- Arrow's checks on a batch put together from columns: their lengths, and nulls where a field takes none. -/
def tryNew (schema : Schema τ) (columns : List (List ν)) : Except Error (RecordBatch τ ν) :=
  match columns with
  | [] => .error (.arrow "must either specify a row count or at least one column")
  | first :: _ =>
      if columns.any fun values => values.length ≠ first.length then
        .error (.arrow "all columns in a record batch must have the same length")
      else if (columns.zip schema.fields).any fun (values, field) => !field.nullable && values.any env.isNull then
        .error (.arrow "a column declared as non-nullable contains null values")
      else .ok ⟨schema.fields, (List.range first.length).map fun row => columns.map fun values => values.getD row env.null⟩

/-- Build one batch from rows named across several batches. -/
def gather (batches : List (RecordBatch τ ν)) (schema : Schema τ) (picks : List (Nat × Nat)) :
    Except Error (RecordBatch τ ν) := do
  let columns ← (List.range schema.fields.length).mapM fun index =>
    interleave (batches.map fun batch => column env batch index) picks
  tryNew env schema columns

/-- Order rows by their z-order key and cut them into row groups, each gathered column by column. -/
def cluster (batches : List (RecordBatch τ ν)) (schema : Schema τ) (columns : List Nat) (groupRows : Nat) :
    Except Error (List (List (RecordBatch τ ν))) := do
  let total := totalRows batches
  if columns.isEmpty ∨ total = 0 then
    return []
  else
    let at_ := places batches
    let width := dimBytes * columns.length
    let keys ← keysOf env batches columns
    let order := env.sortUnstable (fun row => (keys.drop (row * width)).take width) (List.range (total % 2 ^ 32))
    let perGroup := if groupRows = 0 then total else groupRows
    (chunks perGroup order).mapM fun chunk => do
      let batch ← gather env batches schema (chunk.map fun row => at_.getD row (0, 0))
      return [batch]

/-- A batch Arrow made of the schema's columns. -/
structure Fits (schema : Schema τ) (batch : RecordBatch τ ν) : Prop where
  fields : batch.fields = schema.fields
  width : ∀ row ∈ batch.rows, row.length = schema.fields.length
  required : ∀ row ∈ batch.rows, ∀ index field, schema.fields[index]? = some field → field.nullable = false →
    env.isNull (row.getD index env.null) = false

variable {env} {batches : List (RecordBatch τ ν)} {schema : Schema τ}

/-- The row that a batch and a place in it name. -/
def rowAt (batches : List (RecordBatch τ ν)) (place : Nat × Nat) : Option (Row ν) :=
  (batches[place.1]?).bind (·.rows[place.2]?)

/-- The place of a global row number is where the row of that number is. -/
theorem rowAt_places (batches : List (RecordBatch τ ν)) :
    (places batches).map (rowAt batches) = (rowsOf batches).map some := by
  have hfrom : ∀ (front back : List (RecordBatch τ ν)),
      ((back.zipIdx front.length).flatMap fun (batch, index) => (List.range batch.numRows).map fun row => (index, row)).map
        (rowAt (front ++ back)) = (rowsOf back).map some := by
    intro front back
    induction back generalizing front with
    | nil => rfl
    | cons batch back ih =>
        have hrest := ih (front ++ [batch])
        rw [List.length_append, List.length_singleton, List.append_assoc, List.singleton_append] at hrest
        rw [List.zipIdx_cons, List.flatMap_cons, List.map_append, hrest, rowsOf_cons, List.map_append, List.map_map]
        congr 1
        refine List.ext_getElem? fun row => ?_
        rw [List.getElem?_map, List.getElem?_map, RecordBatch.numRows]
        by_cases hrow : row < batch.rows.length
        · rw [List.getElem?_range hrow, List.getElem?_eq_getElem hrow]
          simp [rowAt, hrow]
        · rw [List.getElem?_eq_none (by simpa using hrow), List.getElem?_eq_none (by simpa using hrow)]
          rfl
  exact hfrom [] batches

theorem getElem?_column (batch : RecordBatch τ ν) (index row : Nat) :
    (column env batch index)[row]? = (batch.rows[row]?).map fun row => row.getD index env.null :=
  List.getElem?_map ..

/-- Interleaving a column gives the column of the rows picked. -/
theorem interleave_column (index : Nat) {picks : List (Nat × Nat)} {rows : List (Row ν)}
    (h : picks.map (rowAt batches) = rows.map some) :
    interleave (batches.map fun batch => column env batch index) picks =
      .ok (rows.map fun row => row.getD index env.null) := by
  induction picks generalizing rows with
  | nil =>
      obtain rfl : rows = [] := by simpa using h.symm
      rfl
  | cons pick picks ih =>
      cases rows with
      | nil => cases h
      | cons row rows =>
          obtain ⟨hrow, hrest⟩ := List.cons.inj h
          obtain ⟨batch, hbatch, hget⟩ := Option.bind_eq_some_iff.mp hrow
          have hvalue : ((batches.map fun batch => column env batch index)[pick.1]?).bind (·[pick.2]?) =
              some (row.getD index env.null) := by
            rw [List.getElem?_map, hbatch]
            simp only [Option.map_some, Option.bind_some, getElem?_column, hget]
          rw [interleave, List.mapM_cons, hvalue]
          exact congrArg (fun rest => (do let rest ← rest; return row.getD index env.null :: rest)) (ih hrest)

/-- The columns of some rows, put together again, are the rows. -/
theorem tryNew_columns {rows : List (Row ν)} (hfields : schema.fields ≠ [])
    (hwidth : ∀ row ∈ rows, row.length = schema.fields.length)
    (hrequired : ∀ row ∈ rows, ∀ index field, schema.fields[index]? = some field → field.nullable = false →
      env.isNull (row.getD index env.null) = false) :
    tryNew env schema ((List.range schema.fields.length).map fun index => rows.map fun row => row.getD index env.null) =
      .ok ⟨schema.fields, rows⟩ := by
  have hlengths : (((List.range schema.fields.length).map fun index => rows.map fun row => row.getD index env.null).any
      fun values => values.length ≠ rows.length) = false := by simp
  have hnulls : ((((List.range schema.fields.length).map fun index => rows.map fun row => row.getD index env.null).zip
      schema.fields).any fun (values, field) => !field.nullable && values.any env.isNull) = false := by
    rw [List.any_eq_false]
    rintro ⟨values, field⟩ hpair
    obtain ⟨index, hindex, hget⟩ := List.getElem_of_mem hpair
    rw [List.getElem_zip, Prod.mk.injEq, List.getElem_map, List.getElem_range] at hget
    obtain ⟨rfl, hfield⟩ := hget
    rw [Bool.and_eq_true, List.any_eq_true]
    rintro ⟨hnullable, value, hvalue, hnull⟩
    obtain ⟨row, hrow, rfl⟩ := List.mem_map.mp hvalue
    have := hrequired row hrow index field (List.getElem?_eq_some_iff.mpr ⟨_, hfield⟩) (by simpa using hnullable)
    rw [this] at hnull
    cases hnull
  have hrows : ((List.range rows.length).map fun at_ => ((List.range schema.fields.length).map fun index =>
      rows.map fun row => row.getD index env.null).map fun values => values.getD at_ env.null) = rows := by
    refine List.ext_getElem (by simp) fun at_ hleft hright => ?_
    have hrow := hwidth rows[at_] (List.getElem_mem hright)
    rw [List.getElem_map, List.getElem_range, List.map_map]
    refine List.ext_getElem (by simp [hrow]) fun index hindex hindex' => ?_
    simp [hright, hindex']
  obtain ⟨count, hcount⟩ := Nat.exists_eq_succ_of_ne_zero fun h => hfields (List.length_eq_zero_iff.mp h)
  have hfirst : (List.range schema.fields.length).map (fun index => rows.map fun row => row.getD index env.null) =
      (rows.map fun row => row.getD 0 env.null) :: (List.range' 1 count).map fun index =>
        rows.map fun row => row.getD index env.null := by
    rw [hcount, List.range_eq_range', List.range'_succ, List.map_cons]
  generalize (List.range schema.fields.length).map (fun index => rows.map fun row => row.getD index env.null) = columns at *
  subst hfirst
  rw [tryNew, List.length_map, if_neg (by rw [hlengths]; decide), if_neg (by rw [hnulls]; decide), hrows]

theorem gather_eq {picks : List (Nat × Nat)} {rows : List (Row ν)} (hfields : schema.fields ≠ [])
    (hfits : ∀ batch ∈ batches, Fits env schema batch) (hrows : ∀ row ∈ rows, row ∈ rowsOf batches)
    (h : picks.map (rowAt batches) = rows.map some) : gather env batches schema picks = .ok ⟨schema.fields, rows⟩ := by
  have hfrom : ∀ row ∈ rows, ∃ batch ∈ batches, row ∈ batch.rows := fun row hrow => List.mem_flatMap.mp (hrows row hrow)
  rw [gather, mapM_eq_ok fun index _ => interleave_column index h]
  refine tryNew_columns hfields (fun row hrow => ?_) fun row hrow => ?_
  · obtain ⟨batch, hbatch, hmem⟩ := hfrom row hrow
    exact (hfits batch hbatch).width row hmem
  · obtain ⟨batch, hbatch, hmem⟩ := hfrom row hrow
    exact (hfits batch hbatch).required row hmem

/-- A row number names, through its place, the row of that number. -/
theorem rowAt_getD (batches : List (RecordBatch τ ν)) {row : Nat} (h : row < totalRows batches) :
    rowAt batches ((places batches).getD row (0, 0)) = some ((rowsOf batches).getD row []) := by
  have hget := congrArg (·[row]?) (rowAt_places batches)
  simp only [List.getElem?_map] at hget
  rw [← length_rowsOf] at h
  rw [List.getD_eq_getElem?_getD, List.getD_eq_getElem?_getD, List.getElem?_eq_getElem h]
  rw [List.getElem?_eq_getElem h] at hget
  cases hplace : (places batches)[row]? with
  | none =>
      rw [hplace] at hget
      cases hget
  | some place =>
      rw [hplace] at hget
      exact Option.some.inj hget

variable {columns : List Nat} {key : Row ν → Bytes}

/-- One batch fills a slot for each of its rows. -/
theorem foldlM_slots {batch : RecordBatch τ ν} (hfields : batch.fields = schema.fields)
    (hkeys : ∀ row ∈ batch.rows, zorderKey env schema columns row = .ok (key row)) (keys : Bytes) :
    (List.range batch.numRows).foldlM (fun keys row => do
      let dimensions ← columns.mapM fun index => dimensionAt env batch index row
      return keys ++ interleaveInto dimensions) keys = .ok (keys ++ batch.rows.flatMap key) := by
  have hupto : ∀ n ≤ batch.rows.length, (List.range n).foldlM (fun keys row => do
      let dimensions ← columns.mapM fun index => dimensionAt env batch index row
      return keys ++ interleaveInto dimensions) keys = .ok (keys ++ (batch.rows.take n).flatMap key) := by
    intro n hn
    induction n with
    | zero => simp [pure, Except.pure]
    | succ n ih =>
        have hget : batch.rows[n]? = some batch.rows[n] := List.getElem?_eq_getElem hn
        have hkey := hkeys batch.rows[n] (List.getElem_mem hn)
        rw [zorderKey] at hkey
        obtain ⟨dimensions, hdims, hdone⟩ := bind_eq_ok.mp hkey
        have hdimensions : (columns.mapM fun index => dimensionAt env batch index n) = .ok dimensions := by
          refine Eq.trans (congrArg (columns.mapM ·) (funext fun index => ?_)) hdims
          have hvalue : (column env batch index).getD n env.null = batch.rows[n].getD index env.null := by
            rw [List.getD_eq_getElem?_getD, getElem?_column, hget]
            rfl
          cases hfield : schema.fields[index]? with
          | none => simp only [dimensionAt, hfields, hfield]
          | some field => simp only [dimensionAt, hfields, hfield, hvalue]
        rw [List.range_succ, List.foldlM_append, ih (by omega), List.take_add_one, hget, List.flatMap_append,
          ← List.append_assoc]
        simp only [bind, Except.bind, List.foldlM_cons, List.foldlM_nil, hdimensions]
        simp [pure, Except.pure, ← pure_eq_ok.mp hdone]
  have := hupto batch.rows.length le_rfl
  rwa [List.take_length] at this

theorem keysOf_eq (hfields : ∀ batch ∈ batches, batch.fields = schema.fields)
    (hkeys : ∀ row ∈ rowsOf batches, zorderKey env schema columns row = .ok (key row)) :
    keysOf env batches columns = .ok ((rowsOf batches).flatMap key) := by
  have hfold : ∀ keys : Bytes, batches.foldlM (fun keys batch => (List.range batch.numRows).foldlM (fun keys row => do
      let dimensions ← columns.mapM fun index => dimensionAt env batch index row
      return keys ++ interleaveInto dimensions) keys) keys = .ok (keys ++ (rowsOf batches).flatMap key) := by
    induction batches with
    | nil => intro keys; simp [pure, Except.pure]
    | cons batch batches ih =>
        intro keys
        rw [rowsOf_cons] at hkeys ⊢
        rw [List.foldlM_cons, foldlM_slots (hfields batch List.mem_cons_self)
          fun row hrow => hkeys row (List.mem_append_left _ hrow)]
        refine (ih (fun b hb => hfields b (List.mem_cons_of_mem _ hb))
          (fun row hrow => hkeys row (List.mem_append_right _ hrow)) _).trans ?_
        rw [List.flatMap_append, List.append_assoc]
  exact hfold []

/-- A slot of the buffer is the key of the row of that number. -/
theorem slot_eq {rows : List (Row ν)} {width : Nat} (hwidth : ∀ row ∈ rows, (key row).length = width) (row : Nat) :
    ((rows.flatMap key).drop (row * width)).take width = (rows.map key).getD row [] := by
  induction rows generalizing row with
  | nil => simp
  | cons first rows ih =>
      have hfirst := hwidth first List.mem_cons_self
      rw [List.flatMap_cons]
      cases row with
      | zero =>
          rw [Nat.zero_mul, List.drop_zero, List.take_append_of_le_length hfirst.ge, ← hfirst, List.take_length]
          rfl
      | succ row =>
          have hskip : (row + 1) * width = (key first).length + row * width := by
            rw [hfirst, Nat.succ_mul, Nat.add_comm]
          rw [hskip, List.drop_length_add_append, ih fun row hrow => hwidth row (List.mem_cons_of_mem _ hrow)]
          rfl

/-- Clustering column by column is clustering row by row. -/
theorem cluster_eq {groupRows : Nat} (hsome : schema.fields ≠ []) (hfits : ∀ batch ∈ batches, Fits env schema batch)
    (hkeys : ∀ row ∈ rowsOf batches, zorderKey env schema columns row = .ok (key row))
    (hwidth : ∀ row ∈ rowsOf batches, (key row).length = dimBytes * columns.length) :
    cluster env batches schema columns groupRows = LocalTables.cluster env batches schema columns groupRows := by
  rw [cluster, LocalTables.cluster]
  dsimp only
  by_cases hnone : columns.isEmpty = true ∨ totalRows batches = 0
  · rw [if_pos hnone, if_pos hnone]
  · have hslots : (fun row => (((rowsOf batches).flatMap key).drop (row * (dimBytes * columns.length))).take
        (dimBytes * columns.length)) = fun row => ((rowsOf batches).map key).getD row [] :=
      funext fun row => slot_eq hwidth row
    have hgather : ∀ chunk ∈ chunks (if groupRows = 0 then totalRows batches else groupRows)
        (env.sortUnstable (fun row => ((rowsOf batches).map key).getD row []) (List.range (totalRows batches % 2 ^ 32))),
        gather env batches schema (chunk.map fun row => (places batches).getD row (0, 0)) =
          .ok ⟨schema.fields, chunk.map fun row => (rowsOf batches).getD row []⟩ := by
      intro chunk hchunk
      have hrow : ∀ row ∈ chunk, row < totalRows batches := by
        intro row hrow
        obtain ⟨index, -, rfl⟩ := List.mem_map.mp hchunk
        have hsorted := (env.sortUnstable_perm _ _).mem_iff.mp (List.mem_of_mem_drop (List.mem_of_mem_take hrow))
        exact Nat.lt_of_lt_of_le (List.mem_range.mp hsorted) (Nat.mod_le _ _)
      refine gather_eq hsome hfits (fun row hmem => ?_) ?_
      · obtain ⟨number, hnumber, rfl⟩ := List.mem_map.mp hmem
        have hlt : number < (rowsOf batches).length := by rw [length_rowsOf]; exact hrow number hnumber
        rw [List.getD_eq_getElem?_getD, List.getElem?_eq_getElem hlt]
        exact List.getElem_mem hlt
      · rw [List.map_map, List.map_map]
        exact List.map_congr_left fun row hmem => rowAt_getD batches (hrow row hmem)
    rw [if_neg hnone, if_neg hnone, keysOf_eq (fun batch hbatch => (hfits batch hbatch).fields) hkeys,
      mapM_eq_ok hkeys]
    refine (congrArg (fun slot => (chunks _ (env.sortUnstable slot _)).mapM _) hslots).trans ?_
    rw [mapM_eq_ok fun chunk hchunk => congrArg (fun batch => (do let batch ← batch; return [batch])) (hgather chunk hchunk)]
    rfl

end Zorder

section Sorted

variable {τ ν : Type}

/-- The sort puts rows in the order of their keys. -/
def SortsByKey (env : Env τ ν) : Prop :=
  ∀ (key : Nat → Bytes) (rows : List Nat),
    (env.sortUnstable key rows).Pairwise fun a b => (compare (key a) (key b)).isLE = true

theorem dropLast_range (n : Nat) : (List.range n).dropLast = List.range (n - 1) := by
  cases n with
  | zero => rfl
  | succ n => rw [List.range_succ, List.dropLast_concat, Nat.add_sub_cancel]

/-- What a clustering is for: the rows, each of them whole, in the order of their keys, cut into groups. -/
structure Clustered (env : Env τ ν) (schema : Schema τ) (columns : List Nat) (batches : List (RecordBatch τ ν))
    (groupRows : Nat) (groups : List (List (RecordBatch τ ν))) : Prop where
  rows : (rowsOf groups.flatten).Perm (rowsOf batches)
  sorted : (rowsOf groups.flatten).Pairwise fun r s => ∃ a b, zorderKey env schema columns r = .ok a ∧
    zorderKey env schema columns s = .ok b ∧ (compare a b).isLE = true
  fields : ∀ group ∈ groups, ∀ batch ∈ group, batch.fields = schema.fields
  sizes : ∀ group ∈ groups, 0 < totalRows group ∧ (groupRows ≠ 0 → totalRows group ≤ groupRows)
  full : groupRows ≠ 0 → ∀ group ∈ groups.dropLast, totalRows group = groupRows
  single : groupRows = 0 → totalRows batches ≠ 0 → groups.length = 1

variable {env : Env τ ν} {schema : Schema τ} {columns : List Nat} {batches : List (RecordBatch τ ν)}
  {key : Row ν → Bytes} {groupRows : Nat} {groups : List (List (RecordBatch τ ν))}

theorem totalRows_chunk (fields : List (Field τ)) (row : Nat → Row ν) (chunk : List Nat) :
    totalRows [(⟨fields, chunk.map row⟩ : RecordBatch τ ν)] = chunk.length := by
  rw [totalRows, List.map_singleton, List.sum_singleton, RecordBatch.numRows, List.length_map]

theorem cluster_clustered (hsorts : SortsByKey env) (hcolumns : columns ≠ []) (hfew : totalRows batches < 2 ^ 32)
    (hkeys : ∀ row ∈ rowsOf batches, zorderKey env schema columns row = .ok (key row)) :
    ∃ groups, cluster env batches schema columns groupRows = .ok groups ∧
      Clustered env schema columns batches groupRows groups := by
  rw [cluster]
  dsimp only
  by_cases hnone : columns.isEmpty = true ∨ totalRows batches = 0
  · rw [if_pos hnone]
    have htotal : totalRows batches = 0 := hnone.resolve_left fun h => hcolumns (List.isEmpty_iff.mp h)
    have hrows : rowsOf batches = [] := List.length_eq_zero_iff.mp ((length_rowsOf batches).trans htotal)
    exact ⟨[], rfl, by rw [hrows]; exact .refl _, .nil, by simp, by simp, by simp, fun _ h => absurd htotal h⟩
  · rw [not_or] at hnone
    have hpos : 0 < if groupRows = 0 then totalRows batches else groupRows := by
      split <;> omega
    have hperm := env.sortUnstable_perm (fun row => ((rowsOf batches).map key).getD row []) (List.range (totalRows batches))
    have hsorted := hsorts (fun row => ((rowsOf batches).map key).getD row []) (List.range (totalRows batches))
    rw [if_neg (not_or.mpr hnone), mapM_eq_ok hkeys, Nat.mod_eq_of_lt hfew]
    refine ⟨_, rfl, ?_⟩
    generalize env.sortUnstable (fun row => ((rowsOf batches).map key).getD row []) (List.range (totalRows batches)) =
      order at hperm hsorted ⊢
    have hlength : order.length = totalRows batches := by rw [hperm.length_eq, List.length_range]
    have hsome : ∀ number ∈ order, ∃ row ∈ rowsOf batches, (rowsOf batches).getD number [] = row ∧
        ((rowsOf batches).map key).getD number [] = key row := by
      intro number hnumber
      have hlt : number < (rowsOf batches).length := by
        rw [length_rowsOf]
        exact List.mem_range.mp (hperm.mem_iff.mp hnumber)
      refine ⟨(rowsOf batches)[number], List.getElem_mem hlt, ?_, ?_⟩
      · rw [List.getD_eq_getElem?_getD, List.getElem?_eq_getElem hlt, Option.getD_some]
      · rw [List.getD_eq_getElem?_getD, List.getElem?_map, List.getElem?_eq_getElem hlt]
        rfl
    have hsize : ∀ chunk ∈ chunks (if groupRows = 0 then totalRows batches else groupRows) order,
        0 < chunk.length ∧ chunk.length ≤ if groupRows = 0 then totalRows batches else groupRows := by
      intro chunk hchunk
      obtain ⟨index, hindex, rfl⟩ := List.mem_map.mp hchunk
      obtain ⟨hlow, hhigh, -⟩ := length_piece hpos order (List.mem_range.mp hindex)
      exact ⟨hlow, hhigh⟩
    refine ⟨?_, ?_, ?_, ?_, ?_, ?_⟩
    · rw [rowsOf_chunks _ _ _ hpos]
      have hmapped := hperm.map fun number => (rowsOf batches).getD number []
      rwa [← length_rowsOf, map_getD_range] at hmapped
    · rw [rowsOf_chunks _ _ _ hpos, List.pairwise_map]
      refine hsorted.imp_of_mem fun {a b} ha hb hle => ?_
      obtain ⟨r, hr, hrow, hkey⟩ := hsome a ha
      obtain ⟨s, hs, hrow', hkey'⟩ := hsome b hb
      rw [hkey, hkey'] at hle
      rw [hrow, hrow']
      exact ⟨_, _, hkeys r hr, hkeys s hs, hle⟩
    · intro group hgroup batch hbatch
      obtain ⟨chunk, -, rfl⟩ := List.mem_map.mp hgroup
      rw [List.mem_singleton.mp hbatch]
    · intro group hgroup
      obtain ⟨chunk, hchunk, rfl⟩ := List.mem_map.mp hgroup
      obtain ⟨hlow, hhigh⟩ := hsize chunk hchunk
      rw [totalRows_chunk]
      exact ⟨hlow, fun hsome => by rwa [if_neg hsome] at hhigh⟩
    · intro hsome group hgroup
      rw [← List.map_dropLast] at hgroup
      obtain ⟨chunk, hchunk, rfl⟩ := List.mem_map.mp hgroup
      rw [chunks, ← List.map_dropLast, dropLast_range] at hchunk
      obtain ⟨index, hindex, rfl⟩ := List.mem_map.mp hchunk
      rw [List.mem_range, if_neg hsome] at hindex
      rw [totalRows_chunk, if_neg hsome]
      exact (length_piece (by omega) order (by omega : index < _)).2.2 (by omega)
    · intro hzero hrows
      rw [List.length_map, chunks, List.length_map, List.length_range, if_pos hzero, hlength]
      have : totalRows batches + totalRows batches - 1 = totalRows batches * 1 + (totalRows batches - 1) := by omega
      rw [this, Nat.mul_add_div (by omega), Nat.div_eq_of_lt (by omega)]

end Sorted

/-- Clustering by columns of encodable types: for any batches of the schema, fewer rows than a `u32` counts. -/
theorem cluster_sorts_rows (env : Env DataType (Option Value)) (hsorts : SortsByKey env) {schema : Schema DataType}
    {columns : List Nat} {batches : List (RecordBatch DataType (Option Value))} (groupRows : Nat) (hcolumns : columns ≠ [])
    (hkeys : ∀ column ∈ columns, ∃ type, schema.KeyColumn column type ∧
      ∀ row ∈ rowsOf batches, type.HoldsAt (row.getD column none))
    (hfits : ∀ batch ∈ batches, Zorder.Fits env.withValuecodec schema batch) (hfew : totalRows batches < 2 ^ 32) :
    ∃ groups, Zorder.cluster env.withValuecodec batches schema columns groupRows = .ok groups ∧
      Clustered env.withValuecodec schema columns batches groupRows groups := by
  have hsome : schema.fields ≠ [] := by
    obtain ⟨column, hcolumn⟩ := List.exists_mem_of_ne_nil columns hcolumns
    obtain ⟨type, ⟨-, field, hfield, -⟩, -⟩ := hkeys column hcolumn
    rintro hnil
    rw [hnil] at hfield
    cases hfield
  have hkey : ∀ row ∈ rowsOf batches, zorderKey env.withValuecodec schema columns row =
      .ok (interleaveInto (columns.map (dimensionOf schema row))) := by
    intro row hrow
    exact zorderKey_eq env row fun column hcolumn => (hkeys column hcolumn).imp fun type h => ⟨h.1, h.2 row hrow⟩
  rw [Zorder.cluster_eq hsome hfits hkey fun row _ => by rw [length_interleaveInto, List.length_map]]
  exact cluster_clustered hsorts hcolumns hfew hkey

/-- An environment of Arrow values that sorts by insertion. -/
def arrowEnv : Env DataType (Option Value) where
  options := plainOptions
  codec := numberedCodec []
  checksum bytes := bytes.foldl (fun sum byte => 31 * sum + UInt64.ofNat byte.toNat) 7
  schemaHash fields := fields.length
  null := none
  isNull := Option.isNone
  memorySize batch := 8 * batch.numRows
  worthBlocking _ := false
  isEncodable := isEncodable
  encodeValue := encodeValue
  canCast _ _ := true
  cast _ _ value := .ok value
  misread _ data := .ok data.rows
  sortUnstable key rows := rows.insertionSort fun a b => (compare (key a) (key b)).isLE = true
  sortUnstable_perm _ rows := List.perm_insertionSort _ rows
  drain ids := ids
  drain_perm ids := .refl ids

theorem arrowEnv_sortsByKey : SortsByKey arrowEnv := by
  intro key rows
  have htotal : Std.Total fun a b : Nat => (compare (key a) (key b)).isLE = true := ⟨fun a b => by
    rw [compare_swap (key b)]
    cases compare (key a) (key b) <;> simp⟩
  have htrans : IsTrans Nat fun a b => (compare (key a) (key b)).isLE = true :=
    ⟨fun a b c hab hbc => Std.TransCmp.isLE_trans hab hbc⟩
  exact List.pairwise_insertionSort _ rows

/-- Three numbers in two batches, one of them null, sorted into groups of two. -/
theorem cluster_sorts_three_rows :
    let schema : Schema DataType := ⟨[⟨"v", .leaf .int32, true⟩], []⟩
    let batches : List (RecordBatch DataType (Option Value)) :=
      [⟨schema.fields, [[some (.word 5)], [none]]⟩, ⟨schema.fields, [[some (.word 3)]]⟩]
    ∃ groups, Zorder.cluster arrowEnv.withValuecodec batches schema [0] 2 = .ok groups ∧
      Clustered arrowEnv.withValuecodec schema [0] batches 2 groups := by
  intro schema batches
  refine cluster_sorts_rows arrowEnv arrowEnv_sortsByKey 2 (by decide) ?_ ?_ (by decide)
  · intro column hcolumn
    rw [List.mem_singleton.mp hcolumn]
    refine ⟨.int32, ⟨by decide, _, rfl, rfl⟩, fun row hrow value hvalue => ?_⟩
    have hbits : value = .word 5 ∨ value = .word 3 := by
      have hrows : row ∈ [[some (Value.word 5)], [none], [some (Value.word 3)]] := hrow
      simp only [List.mem_cons, List.not_mem_nil, or_false] at hrows
      rcases hrows with rfl | rfl | rfl <;> simp_all
    rcases hbits with rfl | rfl
    · exact ⟨4, rfl, by decide⟩
    · exact ⟨4, rfl, by decide⟩
  · have hrequired : ∀ (index : Nat) (field : Field DataType), schema.fields[index]? = some field → field.nullable = true := by
      intro index field hfield
      obtain rfl := List.mem_singleton.mp (List.mem_of_getElem? hfield)
      rfl
    intro batch hbatch
    simp only [batches, List.mem_cons, List.not_mem_nil, or_false] at hbatch
    rcases hbatch with rfl | rfl
    · exact ⟨rfl, by simp [schema], fun row _ index field hfield hnot => by rw [hrequired index field hfield] at hnot; cases hnot⟩
    · exact ⟨rfl, by simp [schema], fun row _ index field hfield hnot => by rw [hrequired index field hfield] at hnot; cases hnot⟩

end LocalTables
