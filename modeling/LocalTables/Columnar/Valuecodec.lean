import LocalTables.Columnar.Bloom
import LocalTables.Columnar.Zonemap
import LocalTables.Lib.OrderedCode

/-! The order of the value encoding (`valuecodec.rs`). Each arm writes values of its types so that the bytes compare as the
values do; with a tag in front of a value, and an escape and an end in what has no fixed width, rows compare column by
column. -/

namespace LocalTables

open OrderedCode Std

section Bytes

theorem compare_ofNat {m n : Nat} (hm : m < 256) (hn : n < 256) :
    compare (UInt8.ofNat m) (UInt8.ofNat n) = compare m n := by
  have hlt : ∀ {m n : Nat}, m < 256 → n < 256 → (UInt8.ofNat m < UInt8.ofNat n ↔ m < n) := by
    intro m n hm hn
    rw [UInt8.lt_iff_toNat_lt, UInt8.toNat_ofNat_of_lt' hm, UInt8.toNat_ofNat_of_lt' hn]
  rw [Nat.compare_eq_ite_lt]
  by_cases hmn : m < n
  · rw [if_pos hmn]
    exact compareOfLessAndEq_eq_lt.mpr ((hlt hm hn).mpr hmn)
  · rw [if_neg hmn]
    by_cases hnm : n < m
    · rw [if_pos hnm, compare_swap]
      rw [show compare (UInt8.ofNat n) (UInt8.ofNat m) = .lt from compareOfLessAndEq_eq_lt.mpr ((hlt hn hm).mpr hnm)]
      rfl
    · rw [if_neg hnm, show m = n by omega, Std.compare_self]

theorem length_beBytes (width n : Nat) : (beBytes width n).length = width := by
  rw [beBytes, List.length_reverse, List.length_map, List.length_range]

theorem beBytes_succ (width n : Nat) :
    beBytes (width + 1) n = UInt8.ofNat (n / 256 ^ width) :: beBytes width n := by
  rw [beBytes, List.range_succ, List.map_append, List.reverse_append]
  rfl

theorem ofNat_mod (n : Nat) : UInt8.ofNat (n % 256) = UInt8.ofNat n := by
  apply UInt8.toNat.inj
  simp

theorem beBytes_mod (width n : Nat) {more : Nat} (h : width ≤ more) :
    beBytes width (n % 256 ^ more) = beBytes width n := by
  rw [beBytes, beBytes]
  congr 1
  refine List.map_congr_left fun i hi => ?_
  have hlt : i < width := List.mem_range.mp hi
  obtain ⟨rest, rfl⟩ := Nat.exists_eq_add_of_lt (Nat.lt_of_lt_of_le hlt h)
  rw [← ofNat_mod, ← ofNat_mod (n / 256 ^ i), Nat.pow_succ, Nat.pow_add, Nat.mul_assoc, Nat.mod_mul_right_div_self,
    Nat.mod_mul_left_mod]

theorem compare_split {base m n : Nat} :
    (compare (m / base) (n / base)).then (compare (m % base) (n % base)) = compare m n := by
  have hm := Nat.div_add_mod m base
  have hn := Nat.div_add_mod n base
  rcases Nat.lt_trichotomy (m / base) (n / base) with hlt | heq | hgt
  · have hmn : m < n := by
      by_contra hge
      exact absurd (Nat.div_le_div_right (c := base) (Nat.le_of_not_lt hge)) (by omega)
    rw [Nat.compare_eq_lt.mpr hlt, Nat.compare_eq_lt.mpr hmn]
    rfl
  · rw [heq] at hm
    rw [heq, Std.compare_self]
    simp only [Ordering.then, Nat.compare_eq_ite_lt]
    exact if_congr (by omega) rfl (if_congr (by omega) rfl rfl)
  · have hnm : n < m := by
      by_contra hge
      exact absurd (Nat.div_le_div_right (c := base) (Nat.le_of_not_lt hge)) (by omega)
    rw [Nat.compare_eq_gt.mpr hgt, Nat.compare_eq_gt.mpr hnm]
    rfl

/-- Big-endian numerals of one width compare as the numbers do. -/
theorem compare_beBytes (width : Nat) {m n : Nat} (hm : m < 256 ^ width) (hn : n < 256 ^ width) :
    compare (beBytes width m) (beBytes width n) = compare m n := by
  induction width generalizing m n with
  | zero =>
      obtain rfl : m = 0 := by simpa using hm
      obtain rfl : n = 0 := by simpa using hn
      rfl
  | succ width ih =>
      have hpos : 0 < 256 ^ width := Nat.pow_pos (by decide)
      have hdigit : ∀ {n}, n < 256 ^ (width + 1) → n / 256 ^ width < 256 := by
        intro n hn
        rw [Nat.pow_succ] at hn
        exact Nat.div_lt_of_lt_mul hn
      rw [beBytes_succ, beBytes_succ, List.compare_cons_cons, compare_ofNat (hdigit hm) (hdigit hn),
        ← beBytes_mod width m le_rfl, ← beBytes_mod width n le_rfl,
        ih (Nat.mod_lt _ hpos) (Nat.mod_lt _ hpos), compare_split]

end Bytes

section Order

/-- Where the bits of a float stand in the total order on floats, the zero of either sign at one place. -/
def floatRank (width bits : Nat) : Int := if bits = 256 ^ width / 2 then 0 else totalOrderOf width bits

/-- How the values of an arm compare: numbers as numbers, floats by the total order on their bits, text byte by byte. -/
def KeyForm.compare : KeyForm → Value → Value → Ordering
  | boolean, .boolean a, .boolean b => Ord.compare a b
  | signed width, .word a, .word b => Ord.compare (signedOf width a) (signedOf width b)
  | unsigned _, .word a, .word b => Ord.compare a b
  | float width, .word a, .word b => Ord.compare (floatRank width a) (floatRank width b)
  | bytes, .bytes a, .bytes b => Ord.compare a b
  | _, _, _ => .eq

/-- The values an arm writes. -/
def KeyForm.Holds : KeyForm → Value → Prop
  | boolean, .boolean _ => True
  | signed width, .word bits | unsigned width, .word bits | float width, .word bits => 0 < width ∧ bits < 256 ^ width
  | bytes, .bytes _ => True
  | _, _ => False

/-- The bytes of a value of the arm. -/
def KeyForm.code (form : KeyForm) (value : Value) : Bytes :=
  match form.write value with
  | .ok written => written
  | .error _ => []

theorem KeyForm.write_eq {form : KeyForm} {value : Value} (h : form.Holds value) :
    form.write value = .ok (form.code value) := by
  rw [KeyForm.code]
  cases form <;> cases value <;> first | rfl | exact absurd h id

theorem half_add_half {width : Nat} (h : 0 < width) : 256 ^ width / 2 + 256 ^ width / 2 = 256 ^ width := by
  obtain ⟨rest, rfl⟩ := Nat.exists_eq_succ_of_ne_zero h.ne'
  rw [Nat.pow_succ]
  omega

/-- The bits of a number with its sign flipped. -/
theorem compare_biased {width a b : Nat} (hwidth : 0 < width) (ha : a < 256 ^ width) (hb : b < 256 ^ width) :
    compare ((a + 256 ^ width / 2) % 256 ^ width) ((b + 256 ^ width / 2) % 256 ^ width) =
      compare (signedOf width a) (signedOf width b) := by
  have hhalf := half_add_half hwidth
  have hbias : ∀ {n}, n < 256 ^ width →
      (((n + 256 ^ width / 2) % 256 ^ width : Nat) : Int) = signedOf width n + (256 ^ width / 2 : Nat) := by
    intro n hn
    rw [signedOf]
    split
    · rw [Nat.mod_eq_of_lt (by omega)]
      omega
    · rw [Nat.mod_eq_sub_mod (by omega), Nat.mod_eq_of_lt (by omega)]
      omega
  have hha := hbias ha
  have hhb := hbias hb
  rw [Nat.compare_eq_ite_lt, Int.compare_eq_ite_lt]
  exact if_congr (by omega) rfl (if_congr (by omega) rfl rfl)

theorem orderPreserving_lt {width bits : Nat} (hwidth : 0 < width) (h : bits < 256 ^ width) :
    orderPreserving width bits < 256 ^ width := by
  have hhalf := half_add_half hwidth
  simp only [orderPreserving]
  split_ifs <;> omega

theorem compare_orderPreserving {width a b : Nat} (hwidth : 0 < width) (ha : a < 256 ^ width) (hb : b < 256 ^ width) :
    compare (orderPreserving width a) (orderPreserving width b) =
      compare (floatRank width a) (floatRank width b) := by
  have hhalf := half_add_half hwidth
  have hrank : ∀ {n}, n < 256 ^ width → (orderPreserving width n : Int) = floatRank width n + (256 ^ width / 2 : Nat) := by
    intro n hn
    simp only [orderPreserving, floatRank, totalOrderOf]
    split_ifs <;> omega
  have hra := hrank ha
  have hrb := hrank hb
  rw [Nat.compare_eq_ite_lt, Int.compare_eq_ite_lt]
  exact if_congr (by omega) rfl (if_congr (by omega) rfl rfl)

/-- An arm that writes words as numerals of one width, in the order of what it makes of their bits. -/
theorem KeyForm.orders_words {form : KeyForm} (width : Nat) {f : Nat → Nat}
    (hholds : ∀ value, form.Holds value → ∃ bits, value = .word bits ∧ 0 < width ∧ bits < 256 ^ width)
    (hcode : ∀ bits, form.code (.word bits) = beBytes width (f bits))
    (hf : ∀ bits, 0 < width → bits < 256 ^ width → f bits < 256 ^ width)
    (hcmp : ∀ a b, 0 < width → a < 256 ^ width → b < 256 ^ width →
      Ord.compare (f a) (f b) = form.compare (.word a) (.word b)) : Orders form.Holds form.compare form.code := by
  refine orders_of_length width (fun x hx => ?_) fun x y hx hy => ?_
  · obtain ⟨bits, rfl, -, -⟩ := hholds x hx
    rw [hcode, length_beBytes]
  · obtain ⟨a, rfl, hwidth, ha⟩ := hholds x hx
    obtain ⟨b, rfl, -, hb⟩ := hholds y hy
    rw [hcode, hcode, compare_beBytes width (hf a hwidth ha) (hf b hwidth hb), hcmp a b hwidth ha hb]

theorem KeyForm.orders (form : KeyForm) : Orders form.Holds form.compare form.code := by
  cases form with
  | boolean =>
      refine orders_of_length 1 (fun x hx => ?_) fun x y hx hy => ?_
      · cases x with
        | boolean value => rfl
        | word bits => exact absurd hx id
        | bytes value => exact absurd hx id
      · cases x with
        | boolean a =>
            cases y with
            | boolean b => cases a <;> cases b <;> rfl
            | word bits => exact absurd hy id
            | bytes value => exact absurd hy id
        | word bits => exact absurd hx id
        | bytes value => exact absurd hx id
  | signed width =>
      refine orders_words width (fun value hvalue => ?_) (fun bits => rfl)
        (fun bits hwidth _ => Nat.mod_lt _ (Nat.pow_pos (by decide))) fun a b hwidth ha hb => compare_biased hwidth ha hb
      cases value with
      | boolean value => exact absurd hvalue id
      | word bits => exact ⟨bits, rfl, hvalue⟩
      | bytes value => exact absurd hvalue id
  | unsigned width =>
      refine orders_words width (fun value hvalue => ?_) (fun bits => rfl) (fun bits _ hbits => hbits)
        fun a b _ _ _ => rfl
      cases value with
      | boolean value => exact absurd hvalue id
      | word bits => exact ⟨bits, rfl, hvalue⟩
      | bytes value => exact absurd hvalue id
  | float width =>
      refine orders_words width (fun value hvalue => ?_) (fun bits => rfl)
        (fun bits hwidth hbits => orderPreserving_lt hwidth hbits)
        fun a b hwidth ha hb => compare_orderPreserving hwidth ha hb
      cases value with
      | boolean value => exact absurd hvalue id
      | word bits => exact ⟨bits, rfl, hvalue⟩
      | bytes value => exact absurd hvalue id
  | bytes =>
      have hzero : ∀ letter : UInt8, letter ≠ 0x00 → Ord.compare 0x00 letter = .lt := by
        intro letter hletter
        exact compareOfLessAndEq_eq_lt.mpr (UInt8.pos_iff_ne_zero.mpr hletter)
      intro x y hx hy s t
      cases x with
      | boolean value => exact absurd hx id
      | word bits => exact absurd hx id
      | bytes a =>
          cases y with
          | boolean value => exact absurd hy id
          | word bits => exact absurd hy id
          | bytes b => exact orders_escaped hzero (by decide) a b trivial trivial s t

end Order

section Rows

/-- One column's value at a row. What reads as null without being null in its array is of no encodable type. -/
def encodeAt (array : ArrowArray) (row : Nat) : Except Error Bytes :=
  if array.isNull row then encodeValue array.dataType none
  else
    match array.value row with
    | some value => encodeValue array.dataType (some value)
    | none => .error (.unsupported "a type cannot be part of a key")

/-- Build the key for one row of the key columns. -/
def encodeRow (columns : List ArrowArray) (row : Nat) : Except Error Bytes :=
  columns.foldlM (fun out column => do
    let bytes ← encodeAt column row
    return out ++ bytes) []

/-- The values of a row. -/
def rowAt (columns : List ArrowArray) (row : Nat) : List (Option Value) := columns.map fun column => column.value row

/-- The order of a column of the type, null first. -/
def LeafType.compare (type : LeafType) : Option Value → Option Value → Ordering :=
  nullFirst fun a b => match type.keyForm with
    | some form => form.compare a b
    | none => .eq

/-- The bytes of a column's value. -/
def LeafType.code (type : LeafType) : Option Value → Bytes :=
  nullable nullTag valueTag fun value => match type.keyForm with
    | some form => form.code value
    | none => []

/-- What a column of the type may hold in a row. -/
def LeafType.HoldsAt (type : LeafType) (value : Option Value) : Prop := ∀ v, value = some v → type.Holds v

/-- Arrays of the types, each value one of its type. -/
def KeyColumns (types : List LeafType) (columns : List ArrowArray) : Prop :=
  List.Forall₂ (fun type column => column.dataType = .leaf type ∧ column.WellTyped) types columns

/-- The types a key takes are those `is_encodable` names, but for the units no time of day is kept in. -/
theorem isEncodable_iff (type : LeafType) : isEncodable (.leaf type) = true ↔ type.keyForm.isSome = true ∨
    type = .time32 .microsecond ∨ type = .time32 .nanosecond ∨ type = .time64 .second ∨ type = .time64 .millisecond := by
  cases type with
  | time32 unit => cases unit <;> simp [isEncodable, LeafType.keyForm]
  | time64 unit => cases unit <;> simp [isEncodable, LeafType.keyForm]
  | _ => simp [isEncodable, LeafType.keyForm]

/-- A value of a type is one its arm writes. -/
theorem LeafType.holds_keyForm {type : LeafType} {form : KeyForm} (hform : type.keyForm = some form) {value : Value}
    (h : type.Holds value) : form.Holds value := by
  cases value with
  | boolean value =>
      cases h
      cases hform
      trivial
  | word bits =>
      obtain ⟨width, hwidth, hbits⟩ := h
      cases type <;> first
        | cases hwidth; done
        | cases hform; done
        | cases hwidth; cases hform; exact ⟨by decide, hbits⟩
        | (next unit => cases unit <;> cases hwidth <;> first | cases hform; done | cases hform; exact ⟨by decide, hbits⟩)
  | bytes value =>
      cases type <;> first
        | exact absurd h id
        | cases hform; done
        | cases hform; trivial

theorem LeafType.orders {type : LeafType} (hkey : type.keyForm ≠ none) :
    Orders type.HoldsAt type.compare type.code := by
  obtain ⟨form, hform⟩ := Option.ne_none_iff_exists'.mp hkey
  have horders := orders_nullable form.orders (show Ord.compare nullTag valueTag = .lt from rfl)
  refine horders.congr (fun x hx v hv => LeafType.holds_keyForm hform (hx v hv)) (fun x y _ _ => ?_) fun x _ => ?_
  · rw [LeafType.compare, hform]
  · rw [LeafType.code, hform]

theorem encodeAt_eq {type : LeafType} {column : ArrowArray} {row : Nat} (hkey : type.keyForm ≠ none)
    (htype : column.dataType = .leaf type) (htyped : column.WellTyped) (hrow : row < column.len) :
    encodeAt column row = .ok (type.code (column.value row)) ∧ type.HoldsAt (column.value row) := by
  obtain ⟨form, hform⟩ := Option.ne_none_iff_exists'.mp hkey
  obtain ⟨values, rfl, hvalues⟩ := htyped.eq_leaf htype
  have hlt : row < values.length := hrow
  have hget : values[row]? = some values[row] := List.getElem?_eq_getElem hlt
  have hvalue : (ArrowArray.leaf type values).value row = values[row] := by rw [ArrowArray.value, hget]; rfl
  have hholds : type.HoldsAt values[row] := fun v hv => hvalues _ (List.getElem_mem hlt) v hv
  have hsome : type ≠ .null := fun h => by rw [h] at hform; cases hform
  refine ⟨?_, hvalue ▸ hholds⟩
  rw [encodeAt, hvalue]
  cases hread : values[row] with
  | none =>
      have hnull : (ArrowArray.leaf type values).isNull row = true := by
        simp [ArrowArray.isNull, hget, hread, hsome]
      rw [if_pos hnull]
      rfl
  | some value =>
      have hnull : (ArrowArray.leaf type values).isNull row = false := by
        simp [ArrowArray.isNull, hget, hread]
      have hwrite := KeyForm.write_eq (LeafType.holds_keyForm hform (hholds value hread))
      rw [if_neg (by rw [hnull]; decide)]
      dsimp only [ArrowArray.dataType]
      rw [encodeValue, hform, LeafType.code, hform]
      dsimp only
      rw [hwrite]
      rfl

theorem encodeRow_eq {types : List LeafType} {columns : List ArrowArray} {row : Nat}
    (hkeys : ∀ type ∈ types, type.keyForm ≠ none) (hcolumns : KeyColumns types columns)
    (hrow : ∀ column ∈ columns, row < column.len) :
    encodeRow columns row = .ok (codeRow LeafType.code types (rowAt columns row)) ∧
      List.Forall₂ LeafType.HoldsAt types (rowAt columns row) := by
  have hfold : ∀ out : Bytes, columns.foldlM (fun out column => do
      let bytes ← encodeAt column row
      return out ++ bytes) out = .ok (out ++ codeRow LeafType.code types (rowAt columns row)) ∧
        List.Forall₂ LeafType.HoldsAt types (rowAt columns row) := by
    induction hcolumns with
    | nil => exact fun out => ⟨congrArg Except.ok (List.append_nil out).symm, .nil⟩
    | cons hcolumn _ ih =>
        intro out
        obtain ⟨hencoded, hholds⟩ := encodeAt_eq (hkeys _ List.mem_cons_self) hcolumn.1 hcolumn.2
          (hrow _ List.mem_cons_self)
        obtain ⟨hrest, hrestHolds⟩ := ih (fun type htype => hkeys type (List.mem_cons_of_mem _ htype))
          (fun column hmem => hrow column (List.mem_cons_of_mem _ hmem)) (out ++ _)
        refine ⟨?_, .cons hholds hrestHolds⟩
        rw [List.foldlM_cons, hencoded]
        refine hrest.trans ?_
        rw [List.append_assoc]
        rfl
  exact hfold []

end Rows

section Bound

/-- The bytes from the last one back, the first of them that can be raised. -/
def raiseLast : List UInt8 → Option (List UInt8)
  | [] => none
  | last :: rest => if last < 0xFF then some ((last + 1) :: rest) else raiseLast rest

/-- The smallest key that is greater than every key starting with some bytes. -/
def prefixUpperBound (bytes : Bytes) : Option Bytes := (raiseLast bytes.reverse).map List.reverse

theorem prefixUpperBound_cases (bytes : Bytes) :
    prefixUpperBound bytes = none ∧ (∀ byte ∈ bytes, byte = 0xFF) ∨
      ∃ front last count, bytes = front ++ last :: List.replicate count 0xFF ∧ last < 0xFF ∧
        prefixUpperBound bytes = some (front ++ [last + 1]) := by
  rw [prefixUpperBound]
  induction bytes using List.reverseRecOn with
  | nil => exact .inl ⟨rfl, by simp⟩
  | append_singleton bytes byte ih =>
      rw [List.reverse_append, List.reverse_singleton, List.singleton_append, raiseLast]
      by_cases hbyte : byte < 0xFF
      · rw [if_pos hbyte]
        exact .inr ⟨bytes, byte, 0, rfl, hbyte, by simp⟩
      · have htop : byte = 0xFF := by
          have hle : byte.toNat < 256 := byte.toNat_lt
          rw [UInt8.lt_iff_toNat_lt] at hbyte
          exact UInt8.toNat.inj (by simp at hbyte ⊢; omega)
        rw [if_neg hbyte]
        rcases ih with ⟨hnone, hall⟩ | ⟨front, last, count, hbytes, hlast, hsome⟩
        · refine .inl ⟨hnone, fun b hb => ?_⟩
          rcases List.mem_append.mp hb with hb | hb
          · exact hall b hb
          · rw [List.mem_singleton.mp hb, htop]
        · refine .inr ⟨front, last, count + 1, ?_, hlast, hsome⟩
          rw [hbytes, htop, List.append_assoc, List.cons_append, List.replicate_succ']

/-- Above bytes that cannot be raised there is only what starts with them. -/
theorem isPrefix_of_replicate_lt {count : Nat} {bytes : Bytes}
    (h : compare (List.replicate count (0xFF : UInt8)) bytes = .lt) : List.replicate count 0xFF <+: bytes := by
  induction count generalizing bytes with
  | zero => exact List.nil_prefix
  | succ count ih =>
      cases bytes with
      | nil =>
          rw [List.replicate_succ, List.compare_cons_nil] at h
          cases h
      | cons byte bytes =>
          rw [List.replicate_succ, List.compare_cons_cons] at h
          rcases Ordering.then_eq_lt.mp h with hlt | ⟨heq, hrest⟩
          · have hnot : ¬(0xFF : UInt8) < byte := by
              rw [UInt8.lt_iff_toNat_lt]
              have : byte.toNat < 256 := byte.toNat_lt
              simp
              omega
            exact absurd (compareOfLessAndEq_eq_lt.mp hlt) hnot
          · rw [List.replicate_succ, ← Std.compare_eq_iff_eq.mp heq]
            exact List.cons_prefix_cons.mpr ⟨rfl, ih hrest⟩

theorem compare_raised {last : UInt8} (h : last < 0xFF) : compare last (last + 1) = .lt := by
  rw [UInt8.lt_iff_toNat_lt] at h
  refine compareOfLessAndEq_eq_lt.mpr ?_
  rw [UInt8.lt_iff_toNat_lt, UInt8.toNat_add]
  simp at h ⊢
  omega

theorem raised_le {last byte : UInt8} (h : compare last byte = .lt) : (compare (last + 1) byte).isLE = true := by
  have hlt : last < byte := compareOfLessAndEq_eq_lt.mp h
  rw [Std.isLE_compare]
  rw [UInt8.lt_iff_toNat_lt] at hlt
  rw [UInt8.le_iff_toNat_le, UInt8.toNat_add]
  have : byte.toNat < 256 := byte.toNat_lt
  simp
  omega

theorem lt_raised (front : Bytes) {last : UInt8} (h : last < 0xFF) (rest : Bytes) :
    compare (front ++ last :: rest) (front ++ [last + 1]) = .lt := by
  rw [compare_append rfl, Std.compare_self, List.compare_cons_cons, compare_raised h]
  rfl

theorem raised_isLE (front : Bytes) (last : UInt8) (count : Nat) {key : Bytes}
    (hlt : compare (front ++ last :: List.replicate count 0xFF) key = .lt)
    (hnot : ¬front ++ last :: List.replicate count 0xFF <+: key) :
    (compare (front ++ [last + 1]) key).isLE = true := by
  induction front generalizing key with
  | nil =>
      cases key with
      | nil =>
          rw [List.nil_append, List.compare_cons_nil] at hlt
          cases hlt
      | cons byte key =>
          rw [List.nil_append, List.compare_cons_cons] at hlt
          rcases Ordering.then_eq_lt.mp hlt with hbyte | ⟨heq, hrest⟩
          · rw [List.nil_append, List.compare_cons_cons, Ordering.isLE_then_iff_and]
            exact ⟨raised_le hbyte, .inr List.isLE_compare_nil_left⟩
          · have hstart := isPrefix_of_replicate_lt hrest
            exact absurd (List.cons_prefix_cons.mpr ⟨Std.compare_eq_iff_eq.mp heq, hstart⟩) hnot
  | cons first front ih =>
      cases key with
      | nil =>
          rw [List.cons_append, List.compare_cons_nil] at hlt
          cases hlt
      | cons byte key =>
          rw [List.cons_append, List.compare_cons_cons] at hlt
          rw [List.cons_append, List.compare_cons_cons]
          rcases Ordering.then_eq_lt.mp hlt with hbyte | ⟨heq, hrest⟩
          · rw [hbyte]
            rfl
          · obtain rfl := Std.compare_eq_iff_eq.mp heq
            rw [Std.compare_self]
            exact ih hrest fun h => hnot (List.cons_prefix_cons.mpr ⟨rfl, h⟩)

end Bound

/-- What the encoding promises: any row of encodable columns has bytes; these compare as the rows do, those of two rows
are equal only where the rows are, and are no proper beginning of each other. And the bound of some bytes is the least
above all that start with them, there being one unless no byte can be raised. -/
structure OrdersRows : Prop where
  encodes : ∀ (types : List LeafType) (columns : List ArrowArray) (row : Nat), (∀ type ∈ types, type.keyForm ≠ none) →
    KeyColumns types columns → (∀ column ∈ columns, row < column.len) → ∃ bytes, encodeRow columns row = .ok bytes
  orders : ∀ (types : List LeafType) (left right : List ArrowArray) (i j : Nat) (a b : Bytes),
    (∀ type ∈ types, type.keyForm ≠ none) → KeyColumns types left → KeyColumns types right →
    (∀ column ∈ left, i < column.len) → (∀ column ∈ right, j < column.len) →
    encodeRow left i = .ok a → encodeRow right j = .ok b →
    compare a b = compareRow LeafType.compare types (rowAt left i) (rowAt right j) ∧
      (a = b ↔ compareRow LeafType.compare types (rowAt left i) (rowAt right j) = .eq) ∧ (a <+: b → a = b)
  bound : ∀ bytes bound, prefixUpperBound bytes = some bound → (∀ key, bytes <+: key → compare key bound = .lt) ∧
    ∀ key, (∀ longer, bytes <+: longer → compare longer key = .lt) → (compare bound key).isLE = true
  unbounded : ∀ bytes, prefixUpperBound bytes = none ↔ ∀ byte ∈ bytes, byte = 0xFF

theorem encode_row_orders_rows : OrdersRows where
  encodes types columns row hkeys hcolumns hrow := ⟨_, (encodeRow_eq hkeys hcolumns hrow).1⟩
  orders types left right i j a b hkeys hleft hright hi hj ha hb := by
    obtain ⟨hleftCode, hleftHolds⟩ := encodeRow_eq hkeys hleft hi
    obtain ⟨hrightCode, hrightHolds⟩ := encodeRow_eq hkeys hright hj
    obtain rfl := Except.ok.inj (hleftCode.symm.trans ha)
    obtain rfl := Except.ok.inj (hrightCode.symm.trans hb)
    have horders := orders_row types fun type htype => LeafType.orders (hkeys type htype)
    exact ⟨horders.compare_eq hleftHolds hrightHolds, horders.code_eq_iff hleftHolds hrightHolds,
      horders.eq_of_isPrefix hleftHolds hrightHolds⟩
  bound bytes bound h := by
    rcases prefixUpperBound_cases bytes with ⟨hnone, -⟩ | ⟨front, last, count, rfl, hlast, hsome⟩
    · rw [hnone] at h
      cases h
    · obtain rfl := Option.some.inj (hsome.symm.trans h)
      refine ⟨fun key hkey => ?_, fun key hkey => ?_⟩
      · obtain ⟨rest, rfl⟩ := hkey
        rw [List.append_assoc, List.cons_append]
        exact lt_raised front hlast _
      · refine raised_isLE front last count (hkey _ (List.prefix_refl _)) fun hstarts => ?_
        have hself := hkey key hstarts
        rw [Std.compare_self] at hself
        cases hself
  unbounded bytes := by
    rcases prefixUpperBound_cases bytes with ⟨hnone, hall⟩ | ⟨front, last, count, rfl, hlast, hsome⟩
    · exact ⟨fun _ => hall, fun _ => hnone⟩
    · rw [hsome]
      refine ⟨fun h => (nomatch h), fun hall => ?_⟩
      rw [hall last (by simp)] at hlast
      exact absurd hlast (by decide)

/-- A text column and a number column: the shorter text first, whatever the number behind it. -/
example : encodeRow [.leaf .utf8 [some (.bytes [97]), some (.bytes [97, 98])],
      .leaf .int32 [some (.word 7), none]] 0 = .ok [1, 97, 0, 0, 1, 0x80, 0, 0, 7] ∧
    encodeRow [.leaf .utf8 [some (.bytes [97]), some (.bytes [97, 98])],
      .leaf .int32 [some (.word 7), none]] 1 = .ok [1, 97, 98, 0, 0, 0] := by decide +kernel

end LocalTables
