import Mathlib.Data.List.Basic
import Mathlib.Data.List.Count

/-! Columns read across: the rows they make up. What is done to every column, cutting, joining, masking, is done to the rows. -/

namespace Crossed

variable {α : Type} {filler : α}

/-- One row of some columns. A column that ends before it is filled. -/
def rowAt (filler : α) (columns : List (List α)) (index : Nat) : List α := columns.map fun column => column.getD index filler

/-- The first rows of some columns. -/
def rows (filler : α) (count : Nat) (columns : List (List α)) : List (List α) :=
  (List.range count).map (rowAt filler columns)

/-- The items a mask keeps. -/
def kept {β : Type} : List Bool → List β → List β
  | true :: mask, item :: items => item :: kept mask items
  | false :: mask, _ :: items => kept mask items
  | _, _ => []

@[simp] theorem length_rows (count : Nat) (columns : List (List α)) : (rows filler count columns).length = count := by
  simp [rows]

@[simp] theorem rows_zero (columns : List (List α)) : rows filler 0 columns = [] := rfl

theorem rows_succ (count : Nat) (columns : List (List α)) :
    rows filler (count + 1) columns = rowAt filler columns 0 :: rows filler count (columns.map List.tail) := by
  rw [rows, List.range_succ_eq_map, List.map_cons, List.map_map, rows]
  congr 1
  apply List.map_congr_left
  intro index _
  simp only [Function.comp_apply, rowAt, List.map_map]
  apply List.map_congr_left
  intro column _
  cases column <;> rfl

theorem rows_singleton (column : List α) : rows filler column.length [column] = column.map fun value => [value] := by
  apply List.ext_getElem?
  intro index
  by_cases hindex : index < column.length
  · simp [rows, rowAt, hindex]
  · simp [rows, hindex]

section Parts

theorem rows_part {start len count : Nat} (h : start + len ≤ count) (columns : List (List α)) :
    rows filler len (columns.map fun column => (column.drop start).take len) =
      ((rows filler count columns).drop start).take len := by
  apply List.ext_getElem?
  intro index
  rw [List.getElem?_take]
  by_cases hindex : index < len
  · rw [if_pos hindex, List.getElem?_drop, rows, rows, List.getElem?_map, List.getElem?_map,
      List.getElem?_range hindex, List.getElem?_range (by omega)]
    simp only [Option.map_some, rowAt, List.map_map]
    congr 1
    apply List.map_congr_left
    intro column _
    simp only [Function.comp_apply, List.getD_eq_getElem?_getD, List.getElem?_take, if_pos hindex, List.getElem?_drop]
  · rw [if_neg hindex, List.getElem?_eq_none (by simpa using hindex)]

theorem rows_append {ι : Type} (places : List ι) {front back : ι → List α} {count more : Nat}
    (h : ∀ place ∈ places, (front place).length = count) :
    rows filler (count + more) (places.map fun place => front place ++ back place) =
      rows filler count (places.map front) ++ rows filler more (places.map back) := by
  rw [rows, List.range_add, List.map_append, List.map_map]
  congr 1
  · apply List.map_congr_left
    intro index hindex
    have hindex := List.mem_range.mp hindex
    simp only [rowAt, List.map_map]
    apply List.map_congr_left
    intro place hplace
    simp only [Function.comp_apply, List.getD_eq_getElem?_getD]
    rw [List.getElem?_append_left (by rw [h place hplace]; exact hindex)]
  · apply List.map_congr_left
    intro index _
    simp only [Function.comp_apply, rowAt, List.map_map]
    apply List.map_congr_left
    intro place hplace
    simp only [Function.comp_apply, List.getD_eq_getElem?_getD]
    rw [List.getElem?_append_right (by rw [h place hplace]; omega), h place hplace, Nat.add_sub_cancel_left]

/-- A column of nothing but the filler adds the filler to every row. -/
theorem rows_fill (count : Nat) (columns : List (List α)) (more width : Nat) :
    rows filler count (columns ++ List.replicate more (List.replicate width filler)) =
      (rows filler count columns).map fun row => row ++ List.replicate more filler := by
  rw [rows, rows, List.map_map]
  apply List.map_congr_left
  intro index _
  simp only [rowAt, Function.comp_apply, List.map_append, List.map_replicate]
  congr 2
  rw [List.getD_eq_getElem?_getD, List.getElem?_replicate]
  split <;> rfl

/-- Taking some of the columns takes some of each row. -/
theorem rows_select {places : List Nat} {width : Nat} (h : ∀ place ∈ places, place < width) (count : Nat)
    (column : Nat → List α) :
    rows filler count (places.map column) =
      (rows filler count ((List.range width).map column)).map fun row => places.filterMap fun place => row[place]? := by
  rw [rows, rows, List.map_map]
  apply List.map_congr_left
  intro index _
  simp only [rowAt, Function.comp_apply, List.map_map]
  induction places with
  | nil => rfl
  | cons place places ih =>
      have hplace := h place List.mem_cons_self
      have hrest := ih fun other hother => h other (List.mem_cons_of_mem _ hother)
      rw [List.map_cons, hrest, List.filterMap_cons, List.getElem?_map, List.getElem?_range hplace]
      rfl

end Parts

section Masks

variable {β γ : Type} {mask : List Bool} {items : List β}

@[simp] theorem kept_nil (mask : List Bool) : kept mask ([] : List β) = [] := by
  cases mask with
  | nil => rfl
  | cons keep mask => cases keep <;> rfl

theorem kept_cons (keep : Bool) (mask : List Bool) (item : β) (items : List β) :
    kept (keep :: mask) (item :: items) = if keep then item :: kept mask items else kept mask items := by
  cases keep <;> rfl

theorem length_kept (h : items.length = mask.length) : (kept mask items).length = mask.count true := by
  induction mask generalizing items with
  | nil => rfl
  | cons keep mask ih =>
      cases items with
      | nil => cases h
      | cons item items =>
          have hrest := ih (Nat.succ.inj h)
          cases keep <;> simp [kept_cons, hrest]

theorem map_kept (f : β → γ) (mask : List Bool) (items : List β) : (kept mask items).map f = kept mask (items.map f) := by
  induction items generalizing mask with
  | nil => simp
  | cons item items ih =>
      cases mask with
      | nil => rfl
      | cons keep mask => cases keep <;> simp [kept_cons, ih]

/-- A mask that is given by a test keeps what passes it. -/
theorem kept_map (test : β → Bool) (items : List β) : kept (items.map test) items = items.filter test := by
  induction items with
  | nil => rfl
  | cons item items ih => rw [List.map_cons, kept_cons, List.filter_cons, ih]

/-- A mask that is given by a test of the positions. -/
theorem kept_range (test : Nat → Bool) (items : List β) : kept ((List.range items.length).map test) items =
    (items.zipIdx.filter fun entry => test entry.2).map Prod.fst := by
  have hfst : items.zipIdx.map Prod.fst = items := by simp
  have hsnd : items.zipIdx.map Prod.snd = List.range items.length := by
    rw [List.zipIdx_map_snd, List.range_eq_range']
  calc kept ((List.range items.length).map test) items
      = kept (items.zipIdx.map fun entry => test entry.2) (items.zipIdx.map Prod.fst) := by
        rw [← hsnd, hfst, List.map_map]
        rfl
    _ = (kept (items.zipIdx.map fun entry => test entry.2) items.zipIdx).map Prod.fst := (map_kept _ _ _).symm
    _ = (items.zipIdx.filter fun entry => test entry.2).map Prod.fst := by rw [kept_map]

theorem rows_kept (mask : List Bool) (columns : List (List α)) (h : ∀ column ∈ columns, column.length = mask.length) :
    rows filler (mask.count true) (columns.map (kept mask)) = kept mask (rows filler mask.length columns) := by
  induction mask generalizing columns with
  | nil => rfl
  | cons keep mask ih =>
      have hsplit : ∀ column ∈ columns, kept (keep :: mask) column =
          if keep then column.getD 0 filler :: kept mask column.tail else kept mask column.tail := by
        intro column hcolumn
        cases column with
        | nil => exact absurd (h [] hcolumn) (by simp)
        | cons value column => exact kept_cons keep mask value column
      have hrest := ih (columns.map List.tail) (by
        intro column hcolumn
        obtain ⟨whole, hwhole, rfl⟩ := List.mem_map.mp hcolumn
        rw [List.length_tail, h whole hwhole, List.length_cons, Nat.add_sub_cancel])
      rw [List.map_map] at hrest
      rw [List.length_cons, rows_succ, kept_cons, ← hrest, List.map_congr_left hsplit]
      cases keep with
      | false => simp [Function.comp_def]
      | true =>
          rw [List.count_cons_self, rows_succ]
          simp [rowAt, Function.comp_def]

end Masks

end Crossed
