import Mathlib.Data.List.TakeDrop
import Mathlib.Tactic.Common

/-! A flat memory of bytes: loads and stores of ranges, and ranges that hold a copy of a part of a list. A copy is
made piece by piece, and a store beside it leaves it alone. -/

namespace Memory

variable {β : Type}

/-- The `len` cells from `ptr` on. -/
def load (memory : Nat → β) (ptr len : Nat) : List β := (List.range len).map fun i => memory (ptr + i)

/-- The memory with these cells put at `ptr`. -/
def store (memory : Nat → β) (ptr : Nat) (cells : List β) : Nat → β := fun cell =>
  if ptr ≤ cell then (cells[cell - ptr]?).getD (memory cell) else memory cell

@[simp] theorem length_load (memory : Nat → β) (ptr len : Nat) : (load memory ptr len).length = len := by
  simp [load]

@[simp] theorem load_zero (memory : Nat → β) (ptr : Nat) : load memory ptr 0 = [] := rfl

theorem load_add (memory : Nat → β) (ptr front back : Nat) :
    load memory ptr (front + back) = load memory ptr front ++ load memory (ptr + front) back := by
  simp only [load, List.range_add, List.map_append, List.map_map, Function.comp_def, Nat.add_assoc]

/-- Two ranges of cells that do not meet. -/
def Apart (ptr len ptr' len' : Nat) : Prop := ptr + len ≤ ptr' ∨ ptr' + len' ≤ ptr

instance (ptr len ptr' len' : Nat) : Decidable (Apart ptr len ptr' len') := inferInstanceAs (Decidable (_ ∨ _))

theorem Apart.symm {ptr len ptr' len' : Nat} (h : Apart ptr len ptr' len') : Apart ptr' len' ptr len := Or.symm h

theorem Apart.mono {ptr len ptr' len' start count start' count' : Nat} (h : Apart ptr len ptr' len') (hstart : ptr ≤ start)
    (hcount : start + count ≤ ptr + len) (hstart' : ptr' ≤ start') (hcount' : start' + count' ≤ ptr' + len') :
    Apart start count start' count' := by
  unfold Apart at *
  omega

theorem load_store_apart {memory : Nat → β} {ptr : Nat} {cells : List β} {start len : Nat}
    (h : Apart ptr cells.length start len) : load (store memory ptr cells) start len = load memory start len := by
  refine List.map_congr_left fun i hi => ?_
  have hi := List.mem_range.mp hi
  unfold Apart at h
  unfold store
  split
  · rw [List.getElem?_eq_none (by omega), Option.getD_none]
  · rfl

theorem load_store_self (memory : Nat → β) (ptr : Nat) (cells : List β) :
    load (store memory ptr cells) ptr cells.length = cells := by
  apply List.ext_getElem
  · exact length_load _ _ _
  · intro i hi hcells
    simp only [load, List.getElem_map, List.getElem_range, store, Nat.le_add_right, if_true, Nat.add_sub_cancel_left,
      List.getElem?_eq_getElem hcells, Option.getD_some]

/-- The part of a list from `offset` on, `len` long. -/
def slice (cells : List β) (offset len : Nat) : List β := (cells.drop offset).take len

theorem length_slice (cells : List β) (offset len : Nat) : (slice cells offset len).length = min len (cells.length - offset) := by
  simp [slice]

theorem slice_add (cells : List β) (offset front back : Nat) :
    slice cells offset (front + back) = slice cells offset front ++ slice cells (offset + front) back := by
  simp only [slice, List.take_add, List.drop_drop]

/-- The range at `ptr` holds the part of the list at `offset`. -/
def Copied (memory : Nat → β) (cells : List β) (ptr offset len : Nat) : Prop :=
  load memory ptr len = slice cells offset len

theorem Copied.zero (memory : Nat → β) (cells : List β) (ptr offset : Nat) : Copied memory cells ptr offset 0 := by
  simp [Copied, slice]

theorem Copied.inside {memory : Nat → β} {cells : List β} {ptr offset len : Nat} (h : Copied memory cells ptr offset len) :
    len ≤ cells.length - offset := by
  have hlen := congrArg List.length h
  rw [length_load, length_slice] at hlen
  omega

theorem copied_add {memory : Nat → β} {cells : List β} {ptr offset front back : Nat} :
    Copied memory cells ptr offset (front + back) ↔
      Copied memory cells ptr offset front ∧ Copied memory cells (ptr + front) (offset + front) back := by
  constructor
  · intro h
    have hinside := h.inside
    unfold Copied at h
    rw [load_add, slice_add] at h
    refine List.append_inj h ?_
    rw [length_load, length_slice]
    omega
  · rintro ⟨hfront, hback⟩
    unfold Copied at *
    rw [load_add, slice_add, hfront, hback]

theorem Copied.take {memory : Nat → β} {cells : List β} {ptr offset len count : Nat}
    (h : Copied memory cells ptr offset len) (hcount : count ≤ len) : Copied memory cells ptr offset count := by
  obtain ⟨rest, rfl⟩ := Nat.exists_eq_add_of_le hcount
  exact (copied_add.mp h).1

theorem Copied.store_apart {memory : Nat → β} {cells stored : List β} {ptr offset len start : Nat}
    (h : Copied memory cells ptr offset len) (hapart : Apart start stored.length ptr len) :
    Copied (store memory start stored) cells ptr offset len := by
  unfold Copied at *
  rw [load_store_apart hapart, h]

theorem Copied.store_next {memory : Nat → β} {cells : List β} {ptr offset len : Nat} (h : Copied memory cells ptr offset len)
    (count : Nat) : Copied (store memory (ptr + len) (slice cells (offset + len) count)) cells ptr offset
      (len + (slice cells (offset + len) count).length) := by
  refine copied_add.mpr ⟨h.store_apart (Or.inr (Nat.le_refl _)), ?_⟩
  unfold Copied
  rw [load_store_self]
  simp [slice]

end Memory
