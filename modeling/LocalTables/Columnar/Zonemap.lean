import LocalTables.Columnar.Arrow
import Mathlib.Data.List.ReduceOption

/-! Per-column bounds (`columnar/zonemap.rs`). Long bounds are cut: a minimum that was cut is still below every value, a
maximum is rounded up or given up. -/

namespace LocalTables

/-- Bounds and null count for one column chunk. -/
structure ZoneMap where
  nullCount : Nat
  min : Option (List UInt8)
  max : Option (List UInt8)

/-- The lowest byte first. -/
def leWidth (width n : Nat) : Bytes := (List.range width).map fun i => UInt8.ofNat (n / 256 ^ i)

/-- The bits of a signed number, as the number. -/
def signedOf (width bits : Nat) : Int := if bits < 256 ^ width / 2 then bits else (bits : Int) - (256 ^ width : Nat)

/-- Where the bits of a float stand in the total order on floats. -/
def totalOrderOf (width bits : Nat) : Int :=
  if bits < 256 ^ width / 2 then bits else -1 - ((bits : Int) - (256 ^ width / 2 : Nat))

/-- The arms of `bounds` and of `decode_bound`. -/
inductive BoundForm where
  | boolean
  | signed (width : Nat)
  | unsigned (width : Nat)
  | float (width : Nat)
  | text
  | blob
  deriving DecidableEq

/-- How the values of an arm compare. -/
def BoundForm.Le : BoundForm → Value → Value → Prop
  | boolean, .boolean a, .boolean b => a ≤ b
  | signed width, .word a, .word b => signedOf width a ≤ signedOf width b
  | unsigned _, .word a, .word b => a ≤ b
  | float width, .word a, .word b => totalOrderOf width a ≤ totalOrderOf width b
  | text, .bytes a, .bytes b => a ≤ b
  | blob, .bytes a, .bytes b => a ≤ b
  | _, _, _ => False

/-- The values an arm works on. -/
def BoundForm.Holds : BoundForm → Value → Prop
  | boolean, .boolean _ => True
  | signed width, .word bits | unsigned width, .word bits | float width, .word bits => bits < 256 ^ width
  | text, .bytes _ | blob, .bytes _ => True
  | _, _ => False

/-- The arm of `bounds` a type takes. -/
def LeafType.boundsArm : LeafType → Option BoundForm
  | boolean => some .boolean
  | int8 => some (.signed 1)
  | int16 => some (.signed 2)
  | int32 => some (.signed 4)
  | int64 => some (.signed 8)
  | uint8 => some (.unsigned 1)
  | uint16 => some (.unsigned 2)
  | uint32 => some (.unsigned 4)
  | uint64 => some (.unsigned 8)
  | float32 => some (.float 4)
  | float64 => some (.float 8)
  | date32 => some (.signed 4)
  | date64 => some (.signed 8)
  | time32 .second | time32 .millisecond => some (.signed 4)
  | time64 .microsecond | time64 .nanosecond => some (.signed 8)
  | timestamp .second _ | timestamp .millisecond _ | timestamp .microsecond _ | timestamp .nanosecond _ => some (.signed 8)
  | duration .second | duration .millisecond | duration .microsecond | duration .nanosecond => some (.signed 8)
  | utf8 | largeUtf8 => some .text
  | binary | largeBinary => some .blob
  | _ => none

/-- The arm of `decode_bound` a type takes. -/
def LeafType.decodeArm : LeafType → Option BoundForm
  | boolean => some .boolean
  | int8 => some (.signed 1)
  | int16 => some (.signed 2)
  | int32 => some (.signed 4)
  | int64 => some (.signed 8)
  | uint8 => some (.unsigned 1)
  | uint16 => some (.unsigned 2)
  | uint32 => some (.unsigned 4)
  | uint64 => some (.unsigned 8)
  | float32 => some (.float 4)
  | float64 => some (.float 8)
  | date32 => some (.signed 4)
  | date64 => some (.signed 8)
  | time32 .second => some (.signed 4)
  | time32 .millisecond => some (.signed 4)
  | time64 .microsecond => some (.signed 8)
  | time64 .nanosecond => some (.signed 8)
  | timestamp .second _ => some (.signed 8)
  | timestamp .millisecond _ => some (.signed 8)
  | timestamp .microsecond _ => some (.signed 8)
  | timestamp .nanosecond _ => some (.signed 8)
  | duration .second => some (.signed 8)
  | duration .millisecond => some (.signed 8)
  | duration .microsecond => some (.signed 8)
  | duration .nanosecond => some (.signed 8)
  | utf8 => some .text
  | largeUtf8 => some .text
  | binary => some .blob
  | largeBinary => some .blob
  | _ => none

/-- Arrow's `min` and `max` kernels: the least and the greatest of the values that are not null. -/
structure Aggregates where
  min : LeafType → List (Option Value) → Option Value
  max : LeafType → List (Option Value) → Option Value
  min_mem : ∀ {type values low}, min type values = some low → some low ∈ values
  max_mem : ∀ {type values high}, max type values = some high → some high ∈ values
  min_le : ∀ {type form values low}, type.boundsArm = some form → (∀ v, some v ∈ values → form.Holds v) →
    min type values = some low → ∀ v, some v ∈ values → form.Le low v
  le_max : ∀ {type form values high}, type.boundsArm = some form → (∀ v, some v ∈ values → form.Holds v) →
    max type values = some high → ∀ v, some v ∈ values → form.Le v high

section Kernels

/-- Which of two values comes first. -/
instance BoundForm.decidableLe : (form : BoundForm) → (a b : Value) → Decidable (form.Le a b)
  | .boolean, .boolean _, .boolean _ => inferInstanceAs (Decidable (_ ≤ _))
  | .signed _, .word _, .word _ => inferInstanceAs (Decidable (_ ≤ _))
  | .unsigned _, .word _, .word _ => inferInstanceAs (Decidable (_ ≤ _))
  | .float _, .word _, .word _ => inferInstanceAs (Decidable (_ ≤ _))
  | .text, .bytes _, .bytes _ => inferInstanceAs (Decidable (_ ≤ _))
  | .blob, .bytes _, .bytes _ => inferInstanceAs (Decidable (_ ≤ _))
  | .boolean, .boolean _, .word _ | .boolean, .boolean _, .bytes _ | .boolean, .word _, _ | .boolean, .bytes _, _
  | .signed _, .word _, .boolean _ | .signed _, .word _, .bytes _ | .signed _, .boolean _, _ | .signed _, .bytes _, _
  | .unsigned _, .word _, .boolean _ | .unsigned _, .word _, .bytes _ | .unsigned _, .boolean _, _ | .unsigned _, .bytes _, _
  | .float _, .word _, .boolean _ | .float _, .word _, .bytes _ | .float _, .boolean _, _ | .float _, .bytes _, _
  | .text, .bytes _, .boolean _ | .text, .bytes _, .word _ | .text, .boolean _, _ | .text, .word _, _
  | .blob, .bytes _, .boolean _ | .blob, .bytes _, .word _ | .blob, .boolean _, _ | .blob, .word _, _ =>
      inferInstanceAs (Decidable False)

/-- The value, of those that are not null, that stands in a relation to each of them. -/
def extremeOf (related : Value → Value → Bool) (values : List (Option Value)) : Option Value :=
  values.reduceOption.find? fun v => values.reduceOption.all (related v)

theorem extremeOf_mem {related : Value → Value → Bool} {values : List (Option Value)} {v : Value}
    (h : extremeOf related values = some v) : some v ∈ values :=
  List.reduceOption_mem_iff.mp (List.mem_of_find?_eq_some h)

theorem extremeOf_related {related : Value → Value → Bool} {values : List (Option Value)} {v w : Value}
    (h : extremeOf related values = some v) (hw : some w ∈ values) : related v w = true :=
  List.all_eq_true.mp (List.find?_some (p := fun v => values.reduceOption.all (related v)) h) w (List.reduceOption_mem_iff.mpr hw)

/-- The least and the greatest value, looked for one by one. -/
def plainAggregates : Aggregates where
  min type values := type.boundsArm.bind fun form => extremeOf (fun v w => decide (form.Le v w)) values
  max type values := type.boundsArm.bind fun form => extremeOf (fun v w => decide (form.Le w v)) values
  min_mem h := by
    obtain ⟨form, -, h⟩ := Option.bind_eq_some_iff.mp h
    exact extremeOf_mem h
  max_mem h := by
    obtain ⟨form, -, h⟩ := Option.bind_eq_some_iff.mp h
    exact extremeOf_mem h
  min_le harm _ h v hv := by
    rw [harm] at h
    exact of_decide_eq_true (extremeOf_related h hv)
  le_max harm _ h v hv := by
    rw [harm] at h
    exact of_decide_eq_true (extremeOf_related h hv)

end Kernels

/-- The bytes a bound is stored as. -/
def BoundForm.store : BoundForm → Value → Bytes
  | boolean, .boolean value => [if value then 1 else 0]
  | signed width, .word bits | unsigned width, .word bits | float width, .word bits => leWidth width bits
  | text, .bytes value | blob, .bytes value => value
  | _, _ => []

/-- Smallest and largest value in an array, as raw bytes. A dictionary is bounded by its values, whether its keys name them or
not; a type that is not covered has no bounds. -/
def boundsOf (K : Aggregates) : ArrowArray → Option Bytes × Option Bytes
  | .leaf type values =>
      match type.boundsArm with
      | some form => ((K.min type values).map form.store, (K.max type values).map form.store)
      | none => (none, none)
  | .dictionary _ _ _ values => boundsOf K values
  | .nested _ _ | .union _ _ _ _ | .runEndEncoded _ _ _ _ _ _ => (none, none)

/-- Rebuild a stored bound as a value of a type; a dictionary's bound is one of its value type. -/
def decodeBound (bytes : Bytes) : DataType → Option (DataType × Value)
  | .leaf type =>
      match type.decodeArm with
      | some .boolean => bytes.head?.map fun byte => (.leaf type, .boolean (byte != 0))
      | some (.signed width) | some (.unsigned width) | some (.float width) =>
          if bytes.length = width then some (.leaf type, .word (ofLe bytes)) else none
      | some .text => if bytes.toByteArray.validateUTF8 then some (.leaf type, .bytes bytes) else none
      | some .blob => some (.leaf type, .bytes bytes)
      | none => none
  | .dictionary _ value => decodeBound bytes value
  | .list _ _ | .struct _ | .union _ _ | .runEndEncoded _ _ => none

/-- Round a prefix up to the smallest value that is greater than every string starting with it. -/
def incrementPrefix (bytes : Bytes) : Option Bytes := go bytes.reverse
where
  /-- The bytes in reverse. -/
  go : Bytes → Option Bytes
    | [] => none
    | last :: rest => if last < 255 then some ((last + 1) :: rest).reverse else go rest

/-- Longest min or max the format stores. -/
def maxBoundBytes : Nat := 64

/-- Compute bounds over an array. -/
def ZoneMap.build (K : Aggregates) (array : ArrowArray) : ZoneMap where
  nullCount := array.nullCount
  -- cutting bytes off the end can only lower a value
  min := (boundsOf K array).1.map fun bytes => if bytes.length > maxBoundBytes then bytes.take maxBoundBytes else bytes
  max := (boundsOf K array).2.bind fun bytes =>
    if bytes.length > maxBoundBytes then incrementPrefix (bytes.take maxBoundBytes) else some bytes

/-- How many pages of bounds a segment of `rows` rows holds. -/
def pageCount (rows pageRows : Nat) : Nat := if pageRows = 0 then 0 else (rows + (pageRows - 1)) / pageRows

/-- Bounds for each page of one column, none when there would be one page or fewer. -/
def pageZones (K : Aggregates) (array : ArrowArray) (pageRows : Nat) : Option (List ZoneMap) :=
  if pageCount array.len pageRows < 2 then none
  else some (go 0 array.len)
where
  /-- The pages from `start` on, at most one for each of the `left` rows. -/
  go (start : Nat) : Nat → List ZoneMap
    | 0 => []
    | left + 1 =>
        if start < array.len then
          let len := min pageRows (array.len - start)
          ZoneMap.build K (array.slice start len) :: go (start + len) left
        else []

/-- The page size a segment records: none where it would have one page. -/
def storedPageRows (rows pageRows : Nat) : Nat := if pageCount rows pageRows > 1 then pageRows else 0

section Order

/-- How the values of a column compare. -/
def LeafType.Le (type : LeafType) (a b : Value) : Prop := ∃ form, type.boundsArm = some form ∧ form.Le a b

/-- How the values of a column compare: those of a dictionary as its values do. -/
def DataType.Le : DataType → Value → Value → Prop
  | leaf type => type.Le
  | dictionary _ value => value.Le
  | _ => fun _ _ => False

end Order

theorem ofLe_leWidth {width n : Nat} (h : n < 256 ^ width) : ofLe (leWidth width n) = n := by
  induction width generalizing n with
  | zero =>
      rw [Nat.pow_zero, Nat.lt_one_iff] at h
      rw [h]
      rfl
  | succ width ih =>
      have hrest : leWidth (width + 1) n = UInt8.ofNat n :: leWidth width (n / 256) := by
        rw [leWidth, List.range_succ_eq_map, List.map_cons, List.map_map, Nat.pow_zero, Nat.div_one, leWidth]
        congr 1
        refine List.map_congr_left fun i _ => ?_
        rw [Function.comp, Nat.succ_eq_add_one, Nat.pow_succ', Nat.div_div_eq_div_mul]
      have hlt : n / 256 < 256 ^ width := by
        rw [Nat.div_lt_iff_lt_mul (by decide)]
        rwa [Nat.pow_succ] at h
      have hfirst := ih hlt
      rw [ofLe] at hfirst
      rw [hrest, ofLe, List.foldr_cons, hfirst, UInt8.toNat_ofNat']
      omega

@[simp] theorem length_leWidth (width n : Nat) : (leWidth width n).length = width := by simp [leWidth]

theorem LeafType.decodeArm_eq_boundsArm (type : LeafType) : type.decodeArm = type.boundsArm := by
  cases type with
  | timestamp unit timezone => cases unit <;> rfl
  | time32 unit => cases unit <;> rfl
  | time64 unit => cases unit <;> rfl
  | duration unit => cases unit <;> rfl
  | _ => rfl

namespace BoundForm

variable {type : LeafType} {form : BoundForm} {a b c : Value}

theorem Le.trans (hab : form.Le a b) (hbc : form.Le b c) : form.Le a c := by
  cases form <;> cases a <;> cases b <;> cases c <;> first
    | exact Bool.le_trans hab hbc
    | exact Int.le_trans hab hbc
    | exact Nat.le_trans hab hbc
    | exact List.le_trans hab hbc
    | exact hab.elim
    | exact hbc.elim

theorem Holds.le_refl (h : form.Holds a) : form.Le a a := by
  cases form <;> cases a <;> first
    | exact h.elim
    | exact Bool.le_refl _
    | exact Int.le_refl _
    | exact Nat.le_refl _
    | exact List.le_refl _

theorem take_le (bytes : Bytes) (count : Nat) : bytes.take count ≤ bytes := by
  have h : bytes.take count ++ [] ≤ bytes.take count ++ bytes.drop count := List.append_left_le (List.nil_le _)
  rwa [List.append_nil, List.take_append_drop] at h

/-- What a rounded-up prefix started as: everything that starts with it is below. -/
theorem lt_incrementPrefix {bytes up : Bytes} (h : incrementPrefix bytes = some up) (rest : Bytes) : bytes ++ rest < up := by
  have hgo : ∀ (reversed : Bytes) (rest : Bytes), incrementPrefix.go reversed = some up → reversed.reverse ++ rest < up := by
    intro reversed
    induction reversed with
    | nil => intro rest h; cases h
    | cons last reversed ih =>
        intro rest h
        rw [List.reverse_cons, List.append_assoc]
        rw [incrementPrefix.go] at h
        split at h
        · next hlast =>
            rw [← Option.some.inj h, List.reverse_cons]
            refine List.append_left_lt (List.cons_lt_cons_iff.mpr (.inl ?_))
            rw [UInt8.lt_iff_toNat_lt, UInt8.toNat_add]
            have hlt : last.toNat < 255 := hlast
            simp only [UInt8.toNat_one]
            omega
        · exact ih _ h
  have := hgo bytes.reverse rest h
  rwa [List.reverse_reverse] at this

/-- Bytes of a bound of fixed width. -/
def width : BoundForm → Nat
  | signed width | unsigned width | float width => width
  | boolean => 1
  | text | blob => 0

theorem width_le (h : type.boundsArm = some form) : form.width ≤ maxBoundBytes := by
  have hwidth : (type.boundsArm.map width).getD 0 ≤ 8 := by
    cases type with
    | timestamp unit timezone | time32 unit | time64 unit | duration unit => cases unit <;> simp [LeafType.boundsArm, width]
    | _ => simp [LeafType.boundsArm, width]
  rw [h] at hwidth
  exact Nat.le_trans hwidth (by decide)

/-- How a minimum is cut. -/
def cutMin (bytes : Bytes) : Bytes := if bytes.length > maxBoundBytes then bytes.take maxBoundBytes else bytes

/-- How a maximum is. -/
def cutMax (bytes : Bytes) : Option Bytes :=
  if bytes.length > maxBoundBytes then incrementPrefix (bytes.take maxBoundBytes) else some bytes

theorem cutMin_le (bytes : Bytes) : cutMin bytes ≤ bytes := by
  unfold cutMin
  split
  · exact take_le bytes maxBoundBytes
  · exact List.le_refl bytes

theorem le_cutMax {bytes cut : Bytes} (h : cutMax bytes = some cut) : bytes ≤ cut := by
  unfold cutMax at h
  split at h
  · have := lt_incrementPrefix h (bytes.drop maxBoundBytes)
    rw [List.take_append_drop] at this
    exact List.le_of_lt this
  · rw [Option.some.inj h]
    exact List.le_refl cut

theorem cutMin_of_le {bytes : Bytes} (h : bytes.length ≤ maxBoundBytes) : cutMin bytes = bytes := if_neg (Nat.not_lt.mpr h)

theorem cutMax_of_le {bytes : Bytes} (h : bytes.length ≤ maxBoundBytes) : cutMax bytes = some bytes := if_neg (Nat.not_lt.mpr h)

/-- Reading a bound of fixed width back gives the value it was stored from. Text and binary are read back as they are. -/
theorem decode_word (harm : type.boundsArm = some form) {bits width : Nat} {read : DataType × Value}
    (hform : form = .signed width ∨ form = .unsigned width ∨ form = .float width) (hbits : bits < 256 ^ width)
    (h : decodeBound (leWidth width bits) (.leaf type) = some read) : read.2 = .word bits := by
  rw [decodeBound, type.decodeArm_eq_boundsArm, harm] at h
  rcases hform with rfl | rfl | rfl <;>
    · dsimp only at h
      rw [if_pos (length_leWidth width bits), ofLe_leWidth hbits] at h
      rw [← Option.some.inj h]

theorem decode_boolean (harm : type.boundsArm = some .boolean) {value : Bool} {read : DataType × Value}
    (h : decodeBound [if value then 1 else 0] (.leaf type) = some read) : read.2 = .boolean value := by
  rw [decodeBound, type.decodeArm_eq_boundsArm, harm] at h
  rw [← Option.some.inj h]
  cases value <;> rfl

theorem decode_bytes (harm : type.boundsArm = some form) (hform : form = .text ∨ form = .blob) {bytes : Bytes}
    {read : DataType × Value} (h : decodeBound bytes (.leaf type) = some read) : read.2 = .bytes bytes := by
  rw [decodeBound, type.decodeArm_eq_boundsArm, harm] at h
  rcases hform with rfl | rfl
  · dsimp only at h
    split at h
    · rw [← Option.some.inj h]
    · cases h
  · rw [← Option.some.inj h]

/-- A minimum reads back as a value that is not above the one it was stored from. -/
theorem decode_cutMin (harm : type.boundsArm = some form) {low : Value} (hlow : form.Holds low) {read : DataType × Value}
    (h : decodeBound (cutMin (form.store low)) (.leaf type) = some read) : form.Le read.2 low := by
  have hwidth := width_le harm
  cases form with
  | boolean =>
      cases low with
      | boolean value =>
          rw [store, cutMin_of_le (by simp [maxBoundBytes])] at h
          rw [decode_boolean harm h]
          exact Bool.le_refl value
      | word bits => exact hlow.elim
      | bytes value => exact hlow.elim
  | signed width | unsigned width | float width =>
      cases low with
      | word bits =>
          rw [store, cutMin_of_le ((length_leWidth width bits).trans_le hwidth)] at h
          rw [decode_word harm (by simp) hlow h]
          exact Holds.le_refl hlow
      | boolean value => exact hlow.elim
      | bytes value => exact hlow.elim
  | text | blob =>
      cases low with
      | bytes value =>
          rw [store] at h
          rw [decode_bytes harm (by simp) h]
          exact cutMin_le value
      | boolean value => exact hlow.elim
      | word bits => exact hlow.elim

/-- A maximum reads back as a value that is not below the one it was stored from. -/
theorem decode_cutMax (harm : type.boundsArm = some form) {high : Value} (hhigh : form.Holds high) {cut : Bytes}
    (hcut : cutMax (form.store high) = some cut) {read : DataType × Value}
    (h : decodeBound cut (.leaf type) = some read) : form.Le high read.2 := by
  have hwidth := width_le harm
  cases form with
  | boolean =>
      cases high with
      | boolean value =>
          rw [store, cutMax_of_le (by simp [maxBoundBytes])] at hcut
          rw [← Option.some.inj hcut] at h
          rw [decode_boolean harm h]
          exact Bool.le_refl value
      | word bits => exact hhigh.elim
      | bytes value => exact hhigh.elim
  | signed width | unsigned width | float width =>
      cases high with
      | word bits =>
          rw [store, cutMax_of_le ((length_leWidth width bits).trans_le hwidth)] at hcut
          rw [← Option.some.inj hcut] at h
          rw [decode_word harm (by simp) hhigh h]
          exact Holds.le_refl hhigh
      | boolean value => exact hhigh.elim
      | bytes value => exact hhigh.elim
  | text | blob =>
      cases high with
      | bytes value =>
          rw [decode_bytes harm (by simp) h]
          exact le_cutMax hcut
      | boolean value => exact hhigh.elim
      | word bits => exact hhigh.elim

end BoundForm

/-- The values of a type that has bounds are the ones its arm works on. -/
theorem LeafType.Holds.arm {type : LeafType} {form : BoundForm} {v : Value} (h : type.Holds v)
    (harm : type.boundsArm = some form) : form.Holds v := by
  cases v with
  | boolean value =>
      obtain rfl : type = .boolean := h
      rw [← Option.some.inj harm]
      trivial
  | word bits =>
      obtain ⟨width, hwidth, hbits⟩ := h
      have hform : form = .signed width ∨ form = .unsigned width ∨ form = .float width := by
        cases type with
        | timestamp unit timezone | time32 unit | time64 unit | duration unit | interval unit =>
            cases unit <;> simp_all [LeafType.boundsArm, LeafType.width]
        | _ => simp_all [LeafType.boundsArm, LeafType.width]
      rcases hform with rfl | rfl | rfl <;> exact hbits
  | bytes value =>
      have hform : form = .text ∨ form = .blob := by
        cases type with
        | utf8 | largeUtf8 | binary | largeBinary => simp_all [LeafType.boundsArm]
        | binaryView | utf8View | fixedSizeBinary width => cases harm
        | _ => exact h.elim
      rcases hform with rfl | rfl <;> trivial

section Bounds

variable (K : Aggregates)

/-- Every value is at or above the minimum as it reads back. -/
theorem boundsOf_min : ∀ {array : ArrowArray}, array.WellTyped → ∀ {bytes : Bytes} {read : DataType × Value},
    (boundsOf K array).1 = some bytes → decodeBound (BoundForm.cutMin bytes) array.dataType = some read →
      ∀ {row : Nat} {v : Value}, array.value row = some v → array.dataType.Le read.2 v
  | .leaf type values, htyped, bytes, read, hbounds, hread, row, v, hv => by
      have hmem : some v ∈ values := List.mem_of_getElem? (Option.join_eq_some_iff.mp hv)
      cases harm : type.boundsArm with
      | none =>
          rw [boundsOf, harm] at hbounds
          cases hbounds
      | some form =>
          rw [boundsOf, harm] at hbounds
          obtain ⟨low, hlow, rfl⟩ := Option.map_eq_some_iff.mp hbounds
          have hheld : ∀ v, some v ∈ values → form.Holds v := fun v hv => (htyped _ hv v rfl).arm harm
          have hcut := BoundForm.decode_cutMin harm (hheld low (K.min_mem hlow)) hread
          exact ⟨form, harm, hcut.trans (K.min_le harm hheld hlow v hmem)⟩
  | .dictionary key value keys values, htyped, bytes, read, hbounds, hread, row, v, hv => by
      obtain ⟨hvalue, htyped⟩ := htyped
      obtain ⟨at_, -, hv⟩ := Option.bind_eq_some_iff.mp hv
      have hread' : decodeBound (BoundForm.cutMin bytes) values.dataType = some read := hvalue ▸ hread
      have hle := boundsOf_min htyped hbounds hread' hv
      rw [hvalue] at hle
      exact hle
  | .nested type valid, _, _, _, hbounds, _, _, _, _ => by cases hbounds
  | .union fields mode slots children, _, _, _, hbounds, _, _, _, _ => by cases hbounds
  | .runEndEncoded runEnds values ends array offset len, _, _, _, hbounds, _, _, _, _ => by cases hbounds

/-- Every value is at or below the maximum as it reads back. -/
theorem boundsOf_max : ∀ {array : ArrowArray}, array.WellTyped → ∀ {bytes cut : Bytes} {read : DataType × Value},
    (boundsOf K array).2 = some bytes → BoundForm.cutMax bytes = some cut → decodeBound cut array.dataType = some read →
      ∀ {row : Nat} {v : Value}, array.value row = some v → array.dataType.Le v read.2
  | .leaf type values, htyped, bytes, cut, read, hbounds, hcut, hread, row, v, hv => by
      have hmem : some v ∈ values := List.mem_of_getElem? (Option.join_eq_some_iff.mp hv)
      cases harm : type.boundsArm with
      | none =>
          rw [boundsOf, harm] at hbounds
          cases hbounds
      | some form =>
          rw [boundsOf, harm] at hbounds
          obtain ⟨high, hhigh, rfl⟩ := Option.map_eq_some_iff.mp hbounds
          have hheld : ∀ v, some v ∈ values → form.Holds v := fun v hv => (htyped _ hv v rfl).arm harm
          have hle := BoundForm.decode_cutMax harm (hheld high (K.max_mem hhigh)) hcut hread
          exact ⟨form, harm, (K.le_max harm hheld hhigh v hmem).trans hle⟩
  | .dictionary key value keys values, htyped, bytes, cut, read, hbounds, hcut, hread, row, v, hv => by
      obtain ⟨hvalue, htyped⟩ := htyped
      obtain ⟨at_, -, hv⟩ := Option.bind_eq_some_iff.mp hv
      have hread' : decodeBound cut values.dataType = some read := hvalue ▸ hread
      have hle := boundsOf_max htyped hbounds hcut hread' hv
      rw [hvalue] at hle
      exact hle
  | .nested type valid, _, _, _, _, hbounds, _, _, _, _, _ => by cases hbounds
  | .union fields mode slots children, _, _, _, _, hbounds, _, _, _, _, _ => by cases hbounds
  | .runEndEncoded runEnds values ends array offset len, _, _, _, _, hbounds, _, _, _, _, _ => by cases hbounds

end Bounds

section Pages

variable {K : Aggregates} {array : ArrowArray} {pageRows : Nat}

/-- Page by page: each zone map is built from the rows of its page. -/
theorem pageZones_get {zones : List ZoneMap} (h : pageZones K array pageRows = some zones) {page : Nat} {zone : ZoneMap}
    (hzone : zones[page]? = some zone) : 1 < pageCount array.len pageRows ∧ page * pageRows < array.len ∧
      zone = ZoneMap.build K (array.slice (page * pageRows) (min pageRows (array.len - page * pageRows))) := by
  unfold pageZones at h
  obtain ⟨hpages, h⟩ := Option.ite_none_left_eq_some.mp h
  obtain rfl := Option.some.inj h
  have hgo : ∀ (left start page : Nat) (zone : ZoneMap), (pageZones.go K array pageRows start left)[page]? = some zone →
      start + page * pageRows < array.len ∧ zone = ZoneMap.build K (array.slice (start + page * pageRows)
        (min pageRows (array.len - (start + page * pageRows)))) := by
    intro left
    induction left with
    | zero => intro start page zone h; cases h
    | succ left ih =>
        intro start page zone h
        rw [pageZones.go] at h
        split at h
        · next hlt =>
            cases page with
            | zero =>
                rw [List.getElem?_cons_zero, Option.some.injEq] at h
                rw [Nat.zero_mul, Nat.add_zero]
                exact ⟨hlt, h.symm⟩
            | succ page =>
                rw [List.getElem?_cons_succ] at h
                obtain ⟨hrest, hzone⟩ := ih _ _ _ h
                -- there is a page after this one, so this one is full
                have hfull : min pageRows (array.len - start) = pageRows := by
                  have : start + min pageRows (array.len - start) < array.len := by omega
                  omega
                rw [hfull] at hrest hzone
                rw [Nat.succ_mul, Nat.add_comm (page * pageRows), ← Nat.add_assoc]
                exact ⟨hrest, hzone⟩
        · cases h
  have := hgo array.len 0 page zone hzone
  rw [Nat.zero_add] at this
  exact ⟨by omega, this⟩

end Pages

end LocalTables
