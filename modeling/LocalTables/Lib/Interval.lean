import Mathlib.Algebra.BigOperators.Group.Finset.Basic
import Mathlib.Algebra.Order.Group.Nat
import Mathlib.Data.Finset.Card
import Mathlib.Data.List.Sort
import Mathlib.Data.Multiset.Filter
import Mathlib.Logic.Relation
import Mathlib.Tactic.Common

/-! Families of half-open intervals of the naturals, counted point by point. A family in which no
point is counted twice consists of pairwise disjoint intervals, and the count is additive over
lists: cutting an interval into pieces, moving one between two lists or dropping one are linear
facts about the count. -/

namespace LocalTables.Interval

variable {α : Type} (lo hi : α → Nat)

/-- How many members of the family contain the point. -/
def coverAt (family : List α) (point : Nat) : Nat :=
  family.countP fun a => decide (lo a ≤ point ∧ point < hi a)

/-- Two intervals that share no point, written with their ends. -/
def Apart (a b : α) : Prop := hi a ≤ lo b ∨ hi b ≤ lo a

instance (a b : α) : Decidable (Apart lo hi a b) := inferInstanceAs (Decidable (_ ∨ _))

variable {lo hi}

theorem coverAt_cons (a : α) (family : List α) (point : Nat) :
    coverAt lo hi (a :: family) point =
      (if lo a ≤ point ∧ point < hi a then 1 else 0) + coverAt lo hi family point := by
  rw [coverAt, List.countP_cons, Nat.add_comm]
  simp only [decide_eq_true_eq, coverAt]

@[simp]
theorem coverAt_append (left right : List α) (point : Nat) :
    coverAt lo hi (left ++ right) point = coverAt lo hi left point + coverAt lo hi right point :=
  List.countP_append

theorem coverAt_perm {left right : List α} (h : left.Perm right) (point : Nat) :
    coverAt lo hi left point = coverAt lo hi right point :=
  h.countP_eq _

theorem coverAt_pos {family : List α} {a : α} (ha : a ∈ family) {point : Nat}
    (hlo : lo a ≤ point) (hhi : point < hi a) : 0 < coverAt lo hi family point :=
  List.countP_pos_iff.mpr ⟨a, ha, by simp [hlo, hhi]⟩

theorem coverAt_eq_zero {family : List α} {point : Nat}
    (h : ∀ a ∈ family, hi a ≤ point) : coverAt lo hi family point = 0 := by
  refine List.countP_eq_zero.mpr fun a ha => ?_
  have := h a ha
  simp only [decide_eq_true_eq, not_and, not_lt]
  exact fun _ => this

theorem Apart.symm {a b : α} (h : Apart lo hi a b) : Apart lo hi b a := Or.symm h

/-- Two intervals with points, neither of them counted twice, are apart. -/
theorem apart_of_coverAt (a b : α) (family : List α) (ha : lo a < hi a) (hb : lo b < hi b)
    (h : ∀ point, coverAt lo hi (a :: b :: family) point ≤ 1) : Apart lo hi a b := by
  by_contra hne
  simp only [Apart, not_or, not_le] at hne
  have hmax := h (max (lo a) (lo b))
  rw [coverAt_cons, coverAt_cons, if_pos ⟨le_max_left _ _, by omega⟩,
    if_pos ⟨le_max_right _ _, by omega⟩] at hmax
  omega

/-- A family that counts no point twice is pairwise disjoint. -/
theorem pairwise_apart {family : List α} (hpos : ∀ a ∈ family, lo a < hi a)
    (h : ∀ point, coverAt lo hi family point ≤ 1) : family.Pairwise (Apart lo hi) := by
  induction family with
  | nil => exact List.Pairwise.nil
  | cons a family ih =>
      refine List.pairwise_cons.mpr ⟨fun b hb => ?_, ih (fun c hc => hpos c (by simp [hc])) ?_⟩
      · obtain ⟨front, back, rfl⟩ := List.append_of_mem hb
        have hperm : (a :: (front ++ b :: back)).Perm (a :: b :: (front ++ back)) :=
          List.Perm.cons a List.perm_middle
        refine apart_of_coverAt a b (front ++ back) (hpos a (by simp)) (hpos b (by simp)) ?_
        intro point
        rw [← coverAt_perm hperm]
        exact h point
      · intro point
        have := h point
        rw [coverAt_cons] at this
        omega

end LocalTables.Interval
