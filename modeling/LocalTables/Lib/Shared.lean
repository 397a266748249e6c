import Mathlib.Data.List.Count
import Mathlib.Data.List.Dedup

/-! Shared values. A value is kept by counted handles, and is gone once the last of them is dropped; a weak reference names
it without keeping it. -/

namespace Shared

variable {α : Type}

/-- A place in memory. A handle counts, a weak reference does not. -/
abbrev Ref := Nat

/-- Everything that was ever shared, each value with the number of its handles. -/
structure Heap (α : Type) where
  cells : List (α × Nat)

namespace Heap

/-- Share a value: its first handle. -/
def alloc (h : Heap α) (a : α) : Ref × Heap α := (h.cells.length, ⟨h.cells ++ [(a, 1)]⟩)

/-- The value at a place, whether or not it is gone. -/
def value (h : Heap α) (ref : Ref) : Option α := h.cells[ref]?.map Prod.fst

def strongCount (h : Heap α) (ref : Ref) : Nat := (h.cells[ref]?.map Prod.snd).getD 0

/-- One more handle. -/
def clone (h : Heap α) (ref : Ref) : Heap α := ⟨h.cells.modify ref fun cell => (cell.1, cell.2 + 1)⟩

/-- One handle less. -/
def drop (h : Heap α) (ref : Ref) : Heap α := ⟨h.cells.modify ref fun cell => (cell.1, cell.2 - 1)⟩

/-- What a weak reference still leads to. -/
def upgrade (h : Heap α) (ref : Ref) : Option α := if h.strongCount ref > 0 then h.value ref else none

/-- The weak references that still lead somewhere. -/
def retain (h : Heap α) (refs : List Ref) : List Ref := refs.filter fun ref => h.strongCount ref > 0

/-- These are all the handles there are. -/
def Counts (h : Heap α) (handles : List Ref) : Prop := ∀ ref, h.strongCount ref = handles.count ref

section Lemmas

variable {h : Heap α} {handles : List Ref} {ref other : Ref} {a : α}

@[simp] theorem fst_alloc : (h.alloc a).1 = h.cells.length := rfl

theorem value_alloc_self : (h.alloc a).2.value h.cells.length = some a := by
  unfold alloc value
  simp

theorem value_alloc (hheld : h.value ref ≠ none) : (h.alloc a).2.value ref = h.value ref := by
  have hlt : ref < h.cells.length := by
    by_contra hnot
    apply hheld
    simp [value, List.getElem?_eq_none (Nat.not_lt.mp hnot)]
  unfold alloc value
  rw [List.getElem?_append_left hlt]

@[simp] theorem value_clone : (h.clone other).value ref = h.value ref := by
  unfold clone value
  rw [List.getElem?_modify]
  by_cases hsame : other = ref
  · simp [hsame, Function.comp_def]
  · simp [hsame]

@[simp] theorem value_drop : (h.drop other).value ref = h.value ref := by
  unfold drop value
  rw [List.getElem?_modify]
  by_cases hsame : other = ref
  · simp [hsame, Function.comp_def]
  · simp [hsame]

@[simp] theorem length_clone : (h.clone ref).cells.length = h.cells.length := List.length_modify _ _ _

@[simp] theorem length_drop : (h.drop ref).cells.length = h.cells.length := List.length_modify _ _ _

theorem value_of_count (h : Heap α) (hpos : h.strongCount ref > 0) : ∃ a, h.value ref = some a := by
  unfold strongCount at hpos
  unfold value
  cases hcell : h.cells[ref]? with
  | none => simp [hcell] at hpos
  | some cell => exact ⟨cell.1, rfl⟩

namespace Counts

theorem empty : Counts (α := α) ⟨[]⟩ [] := by
  intro ref
  simp [strongCount]

theorem perm {handles' : List Ref} (hcounts : h.Counts handles) (hperm : handles.Perm handles') : h.Counts handles' := by
  intro ref
  rw [hcounts ref, hperm.count_eq]

theorem alive_iff (hcounts : h.Counts handles) : h.strongCount ref > 0 ↔ ref ∈ handles := by
  rw [hcounts ref]
  exact List.count_pos_iff

theorem value (hcounts : h.Counts handles) (hmem : ref ∈ handles) : ∃ a, h.value ref = some a :=
  h.value_of_count (hcounts.alive_iff.mpr hmem)

theorem upgrade (hcounts : h.Counts handles) (hmem : ref ∈ handles) : h.upgrade ref = h.value ref :=
  if_pos (hcounts.alive_iff.mpr hmem)

/-- A new value is at a place no handle leads to. -/
theorem fresh (hcounts : h.Counts handles) : h.cells.length ∉ handles := by
  rw [← hcounts.alive_iff]
  simp [strongCount]

theorem alloc (hcounts : h.Counts handles) (a : α) : (h.alloc a).2.Counts (h.cells.length :: handles) := by
  intro ref
  rw [List.count_cons]
  by_cases hsame : h.cells.length = ref
  · subst hsame
    have hnone := List.count_eq_zero.mpr hcounts.fresh
    simp [Heap.alloc, strongCount, hnone]
  · rw [← hcounts ref]
    unfold Heap.alloc strongCount
    have hother : ¬(h.cells.length == ref) = true := by simpa using hsame
    rw [if_neg hother, List.getElem?_append]
    by_cases hlt : ref < h.cells.length
    · simp [hlt]
    · have hpast : ref - h.cells.length ≠ 0 := Nat.sub_ne_zero_of_lt (Nat.lt_of_le_of_ne (Nat.not_lt.mp hlt) hsame)
      simp [hlt, hpast]

theorem clone (hcounts : h.Counts handles) (hmem : ref ∈ handles) : (h.clone ref).Counts (ref :: handles) := by
  intro other
  rw [List.count_cons, ← hcounts other]
  unfold Heap.clone strongCount
  rw [List.getElem?_modify]
  by_cases hsame : ref = other
  · subst hsame
    obtain ⟨a, hvalue⟩ := hcounts.value hmem
    unfold Heap.value at hvalue
    cases hcell : h.cells[ref]? with
    | none => simp [hcell] at hvalue
    | some cell => simp
  · simp [hsame]

theorem drop (hcounts : h.Counts handles) (ref : Ref) : (h.drop ref).Counts (handles.erase ref) := by
  intro other
  rw [List.count_erase, ← hcounts other]
  unfold Heap.drop strongCount
  rw [List.getElem?_modify]
  by_cases hsame : ref = other
  · subst hsame
    cases hcell : h.cells[ref]? with
    | none => simp
    | some cell => simp
  · have hother : ¬(other == ref) = true := by simpa using Ne.symm hsame
    simp [hsame]

/-- Handing a handle on from one holder to another. -/
theorem drop_cons (hcounts : h.Counts (ref :: handles)) : (h.drop ref).Counts handles := by
  have hdropped := hcounts.drop ref
  rwa [List.erase_cons_head] at hdropped

theorem mem_retain {refs : List Ref} (hcounts : h.Counts handles) : ref ∈ h.retain refs ↔ ref ∈ refs ∧ ref ∈ handles := by
  unfold retain
  rw [List.mem_filter, decide_eq_true_iff, hcounts.alive_iff]

/-- Weak references without duplicates that include every handle are, once pruned, the places there are handles to. -/
theorem retain_perm {refs : List Ref} (hcounts : h.Counts handles) (hnodup : refs.Nodup) (hall : ∀ ref ∈ handles, ref ∈ refs) :
    (h.retain refs).Perm handles.dedup := by
  apply (List.perm_ext_iff_of_nodup (hnodup.filter _) (List.nodup_dedup _)).mpr
  intro ref
  change ref ∈ h.retain refs ↔ _
  rw [hcounts.mem_retain, List.mem_dedup]
  exact ⟨fun hmem => hmem.2, fun hmem => ⟨hall ref hmem, hmem⟩⟩

end Counts

end Lemmas

end Heap

end Shared
