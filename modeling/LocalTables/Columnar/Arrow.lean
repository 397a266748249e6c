import LocalTables.Layout.Frame
import LocalTables.Layout.Manifest

/-! Arrow's types and arrays, as far as the engine looks into them. A value of a fixed-width type is kept as its bits, text
and binary as their bytes. An array has a validity bitmap of its own or none; a row can read as null without being null in
the bitmap of its array. -/

namespace LocalTables

inductive TimeUnit where
  | second
  | millisecond
  | microsecond
  | nanosecond
  deriving DecidableEq, Repr

inductive IntervalUnit where
  | yearMonth
  | dayTime
  | monthDayNano
  deriving DecidableEq, Repr

/-- The types whose arrays have no children. -/
inductive LeafType where
  | null
  | boolean
  | int8
  | int16
  | int32
  | int64
  | uint8
  | uint16
  | uint32
  | uint64
  | float16
  | float32
  | float64
  | timestamp (unit : TimeUnit) (timezone : Option String)
  | date32
  | date64
  | time32 (unit : TimeUnit)
  | time64 (unit : TimeUnit)
  | duration (unit : TimeUnit)
  | interval (unit : IntervalUnit)
  | binary
  | fixedSizeBinary (width : Nat)
  | largeBinary
  | binaryView
  | utf8
  | largeUtf8
  | utf8View
  | decimal32 (precision : Nat) (scale : Int)
  | decimal64 (precision : Nat) (scale : Int)
  | decimal128 (precision : Nat) (scale : Int)
  | decimal256 (precision : Nat) (scale : Int)
  deriving DecidableEq, Repr

/-- The ways a list column is laid out. -/
inductive ListLayout where
  | list
  | largeList
  | fixedSizeList (size : Nat)
  | listView
  | largeListView
  | map (sorted : Bool)
  deriving DecidableEq, Repr

inductive UnionMode where
  | sparse
  | dense
  deriving DecidableEq, Repr

/-- An Arrow data type. The leaf types are written as one constructor, and so are the six kinds of lists. -/
inductive DataType where
  | leaf (type : LeafType)
  | list (layout : ListLayout) (field : Field DataType)
  | struct (fields : List (Field DataType))
  | union (fields : List (Int × Field DataType)) (mode : UnionMode)
  | dictionary (key : LeafType) (value : DataType)
  | runEndEncoded (runEnds values : Field DataType)

namespace DataType

mutual

/-- Whether two types are the same. -/
def decEq : (a b : DataType) → Decidable (a = b)
  | leaf a, b => match b with
    | leaf b => decidable_of_iff (a = b) (by simp)
    | list _ _ | struct _ | union _ _ | dictionary _ _ | runEndEncoded _ _ => isFalse nofun
  | list layout a, b => match b with
    | list layout' b =>
        have := decEqField a b
        decidable_of_iff (layout = layout' ∧ a = b) (by simp)
    | leaf _ | struct _ | union _ _ | dictionary _ _ | runEndEncoded _ _ => isFalse nofun
  | struct a, b => match b with
    | struct b =>
        have := decEqFields a b
        decidable_of_iff (a = b) (by simp)
    | leaf _ | list _ _ | union _ _ | dictionary _ _ | runEndEncoded _ _ => isFalse nofun
  | union a mode, b => match b with
    | union b mode' =>
        have := decEqVariants a b
        decidable_of_iff (a = b ∧ mode = mode') (by simp)
    | leaf _ | list _ _ | struct _ | dictionary _ _ | runEndEncoded _ _ => isFalse nofun
  | dictionary key a, b => match b with
    | dictionary key' b =>
        have := decEq a b
        decidable_of_iff (key = key' ∧ a = b) (by simp)
    | leaf _ | list _ _ | struct _ | union _ _ | runEndEncoded _ _ => isFalse nofun
  | runEndEncoded a c, b => match b with
    | runEndEncoded a' c' =>
        have := decEqField a a'
        have := decEqField c c'
        decidable_of_iff (a = a' ∧ c = c') (by simp)
    | leaf _ | list _ _ | struct _ | union _ _ | dictionary _ _ => isFalse nofun

def decEqField : (a b : Field DataType) → Decidable (a = b)
  | ⟨name, type, nullable⟩, ⟨name', type', nullable'⟩ =>
      have := decEq type type'
      decidable_of_iff (name = name' ∧ type = type' ∧ nullable = nullable') (by simp)

def decEqFields : (a b : List (Field DataType)) → Decidable (a = b)
  | [], b => match b with
    | [] => isTrue rfl
    | _ :: _ => isFalse nofun
  | a :: as, b => match b with
    | [] => isFalse nofun
    | b :: bs =>
        have := decEqField a b
        have := decEqFields as bs
        decidable_of_iff (a = b ∧ as = bs) (by simp)

def decEqVariants : (a b : List (Int × Field DataType)) → Decidable (a = b)
  | [], b => match b with
    | [] => isTrue rfl
    | _ :: _ => isFalse nofun
  | (id, a) :: as, b => match b with
    | [] => isFalse nofun
    | (id', b) :: bs =>
        have := decEqField a b
        have := decEqVariants as bs
        decidable_of_iff ((id = id' ∧ a = b) ∧ as = bs) (by simp)

end

instance : DecidableEq DataType := decEq

/-- Whether the rows of a type lie in its children, behind a bitmap. -/
def isNested : DataType → Bool
  | list _ _ | struct _ => true
  | _ => false

end DataType

/-- A value: a truth value, the bits of a fixed-width one, the bytes of text or binary. -/
inductive Value where
  | boolean (value : Bool)
  | word (bits : Nat)
  | bytes (value : Bytes)
  deriving DecidableEq, Repr

/-- Bytes of one value of a fixed-width type. -/
def LeafType.width : LeafType → Option Nat
  | int8 | uint8 => some 1
  | int16 | uint16 | float16 => some 2
  | int32 | uint32 | float32 | date32 | time32 _ | interval .yearMonth | decimal32 _ _ => some 4
  | int64 | uint64 | float64 | date64 | time64 _ | timestamp _ _ | duration _ | interval .dayTime | decimal64 _ _ => some 8
  | decimal128 _ _ | interval .monthDayNano => some 16
  | decimal256 _ _ => some 32
  | _ => none

/-- Whether a type has this value. That text is UTF-8 plays no part here. -/
def LeafType.Holds (type : LeafType) : Value → Prop
  | .boolean _ => type = .boolean
  | .word bits => ∃ width, type.width = some width ∧ bits < 256 ^ width
  | .bytes value => match type with
    | binary | largeBinary | binaryView | utf8 | largeUtf8 | utf8View => True
    | fixedSizeBinary width => value.length = width
    | _ => False

/-- An array by its values, null where there is none. -/
structure ArrayRef (τ ν : Type) where
  dataType : τ
  values : List (Option ν)

/-- An Arrow array. What lies below the rows of a list or a struct is left out: only their own bitmap is ever asked for.
A slot of a union names a child and a row of it, a key of a dictionary one of its values. Runs keep the array they were cut
from, and where in it their rows start. -/
inductive ArrowArray where
  | leaf (type : LeafType) (values : List (Option Value))
  | nested (type : DataType) (valid : List Bool)
  | union (fields : List (Int × Field DataType)) (mode : UnionMode) (slots : List (Nat × Nat)) (children : List ArrowArray)
  | dictionary (key : LeafType) (value : DataType) (keys : List (Option Nat)) (values : ArrowArray)
  | runEndEncoded (runEnds values : Field DataType) (ends : List Nat) (array : ArrowArray) (offset len : Nat)

namespace ArrowArray

def dataType : ArrowArray → DataType
  | leaf type _ => .leaf type
  | nested type _ => type
  | union fields mode _ _ => .union fields mode
  | dictionary key value _ _ => .dictionary key value
  | runEndEncoded runEnds values _ _ _ _ => .runEndEncoded runEnds values

def len : ArrowArray → Nat
  | leaf _ values => values.length
  | nested _ valid => valid.length
  | union _ _ slots _ => slots.length
  | dictionary _ _ keys _ => keys.length
  | runEndEncoded _ _ _ _ _ len => len

/-- Whether the array's own bitmap says that a row is null. Arrays of nulls, unions and runs have no bitmap. -/
def isNull : ArrowArray → Nat → Bool
  | leaf type values, row => type != .null && values[row]? == some none
  | nested _ valid, row => valid[row]? == some false
  | union _ _ _ _, _ => false
  | dictionary _ _ keys _, row => keys[row]? == some none
  | runEndEncoded _ _ _ _ _ _, _ => false

def nullCount (array : ArrowArray) : Nat := ((List.range array.len).filter array.isNull).length

/-- The rows of a range. -/
def slice (start length : Nat) : ArrowArray → ArrowArray
  | leaf type values => leaf type ((values.drop start).take length)
  | nested type valid => nested type ((valid.drop start).take length)
  | union fields mode slots children => union fields mode ((slots.drop start).take length) children
  | dictionary key value keys values => dictionary key value ((keys.drop start).take length) values
  | runEndEncoded runEnds values ends array offset len =>
      runEndEncoded runEnds values ends array (offset + start) (min length (len - start))

/-- Which run holds a row: the first that ends after it. -/
def runOf (ends : List Nat) (row : Nat) : Nat := ends.findIdx fun stop => row < stop

mutual

/-- Whether a row reads as null (Arrow's `logical_nulls`). -/
def readsNull : ArrowArray → Nat → Bool
  | leaf _ values, row => values[row]? == some none
  | nested _ valid, row => valid[row]? == some false
  | union _ _ slots children, row =>
      match slots[row]? with
      | some (child, at_) => childReadsNull children child at_
      | none => false
  | dictionary _ _ keys values, row =>
      match keys[row]? with
      | some (some key) => values.readsNull key
      | some none => true
      | none => false
  | runEndEncoded _ _ ends array offset _, row => array.readsNull (runOf ends (offset + row))

def childReadsNull : List ArrowArray → Nat → Nat → Bool
  | [], _, _ => false
  | array :: _, 0, row => array.readsNull row
  | _ :: arrays, child + 1, row => childReadsNull arrays child row

end

/-- The value a row reads as, where it is a value of a leaf type. -/
def value : ArrowArray → Nat → Option Value
  | leaf _ values, row => (values[row]?).join
  | dictionary _ _ keys values, row => ((keys[row]?).join).bind values.value
  | runEndEncoded _ _ ends array offset _, row => array.value (runOf ends (offset + row))
  | nested _ _, _ | union _ _ _ _, _ => none

/-- How many rows read as null. -/
def logicalNullCount (array : ArrowArray) : Nat := ((List.range array.len).filter array.readsNull).length

/-- An array in which every value is one of its type. -/
def WellTyped : ArrowArray → Prop
  | leaf type values => ∀ value ∈ values, ∀ v, value = some v → type.Holds v
  | dictionary _ value _ values => values.dataType = value ∧ values.WellTyped
  | runEndEncoded _ values _ array _ _ => array.dataType = values.dataType ∧ array.WellTyped
  | nested type _ => type.isNested = true
  | union _ _ _ _ => True

section Slice

variable {array : ArrowArray} {start length row : Nat}

theorem getElem?_piece {α : Type} (xs : List α) (h : row < length) :
    ((xs.drop start).take length)[row]? = xs[start + row]? := by
  rw [List.getElem?_take_of_lt h, List.getElem?_drop]

theorem dataType_slice (array : ArrowArray) (start length : Nat) : (array.slice start length).dataType = array.dataType := by
  cases array <;> rfl

theorem len_slice (array : ArrowArray) (start length : Nat) :
    (array.slice start length).len = min length (array.len - start) := by
  cases array <;> simp [slice, len]

theorem isNull_slice (h : row < length) : (array.slice start length).isNull row = array.isNull (start + row) := by
  cases array <;> simp only [slice, isNull, getElem?_piece _ h]

theorem value_slice (h : row < length) : (array.slice start length).value row = array.value (start + row) := by
  cases array <;> simp only [slice, value, getElem?_piece _ h, Nat.add_assoc]

theorem WellTyped.slice (h : array.WellTyped) (start length : Nat) : (array.slice start length).WellTyped := by
  cases array with
  | leaf type values => exact fun value hvalue => h value (List.mem_of_mem_drop (List.mem_of_mem_take hvalue))
  | nested type valid => exact h
  | union fields mode slots children => exact h
  | dictionary key value keys values => exact h
  | runEndEncoded runEnds values ends array offset len => exact h

end Slice

/-- The arrays of a leaf type are the leaf arrays. -/
theorem WellTyped.eq_leaf {array : ArrowArray} {type : LeafType} (h : array.WellTyped) (htype : array.dataType = .leaf type) :
    ∃ values, array = leaf type values ∧ ∀ value ∈ values, ∀ v, value = some v → type.Holds v := by
  cases array with
  | leaf type' values =>
      obtain rfl : type' = type := DataType.leaf.inj htype
      exact ⟨values, rfl, h⟩
  | nested type' valid =>
      rw [dataType] at htype
      rw [WellTyped, htype] at h
      cases h
  | union fields mode slots children => cases htype
  | dictionary key value keys values => cases htype
  | runEndEncoded runEnds values ends array offset len => cases htype

/-- A row that is null in the bitmap reads as null. -/
theorem readsNull_of_isNull {array : ArrowArray} {row : Nat} (h : array.isNull row = true) : array.readsNull row = true := by
  cases array with
  | leaf type values =>
      rw [isNull, Bool.and_eq_true] at h
      exact h.2
  | nested type valid => exact h
  | union fields mode slots children => cases h
  | dictionary key value keys values =>
      have hkey : keys[row]? = some none := by simpa [isNull] using h
      rw [readsNull, hkey]
  | runEndEncoded runEnds values ends array offset len => cases h

end ArrowArray

end LocalTables
