import Mathlib.Algebra.BigOperators.Group.List.Basic
import Mathlib.Algebra.Order.Ring.Nat
import Mathlib.Data.List.Chain

/-! Lists cut into consecutive parts, each within a budget or a single item. Cutting as late as the budget allows takes the
fewest parts. -/

namespace Cuts

variable {α : Type} {size : α → Nat} {budget : Nat}

def weight (size : α → Nat) (part : List α) : Nat := (part.map size).sum

/-- A part is not empty, and within the budget unless it is a single item. -/
structure Fits (size : α → Nat) (budget : Nat) (part : List α) : Prop where
  ne_nil : part ≠ []
  within : part.length = 1 ∨ weight size part ≤ budget

/-- These parts make up the list. -/
structure IsCut (size : α → Nat) (budget : Nat) (items : List α) (parts : List (List α)) : Prop where
  flatten : parts.flatten = items
  fits : ∀ part ∈ parts, Fits size budget part

/-- No part could have taken the first item of the next one. -/
def Late (size : α → Nat) (budget : Nat) (parts : List (List α)) : Prop :=
  parts.IsChain fun part next => ∀ item ∈ next.head?, budget < weight size part + size item

section Lemmas

variable {items items' part : List α} {parts other : List (List α)}

@[simp] theorem weight_nil : weight size [] = 0 := rfl

@[simp] theorem weight_cons (item : α) : weight size (item :: items) = size item + weight size items := rfl

@[simp] theorem weight_append : weight size (items ++ items') = weight size items + weight size items' := by
  unfold weight
  rw [List.map_append, List.sum_append]

theorem IsCut.nil : IsCut size budget [] [] := ⟨rfl, by simp⟩

theorem Late.nil : Late size budget [] := List.IsChain.nil

/-- A cut of a longer list, by one more part. -/
theorem IsCut.open (h : IsCut size budget items parts) (item : α) :
    IsCut size budget (items ++ [item]) (parts ++ [[item]]) := by
  refine ⟨by simp [h.flatten], ?_⟩
  intro part hpart
  rcases List.mem_append.mp hpart with hold | hnew
  · exact h.fits part hold
  · obtain rfl := List.mem_singleton.mp hnew
    exact ⟨by simp, .inl rfl⟩

/-- A cut of a longer list, by a longer last part. -/
theorem IsCut.extend (h : IsCut size budget items (parts ++ [part])) {item : α} (hwithin : weight size part + size item ≤ budget) :
    IsCut size budget (items ++ [item]) (parts ++ [part ++ [item]]) := by
  refine ⟨by simp [← h.flatten], ?_⟩
  intro other hother
  rcases List.mem_append.mp hother with hold | hnew
  · exact h.fits other (List.mem_append_left _ hold)
  · obtain rfl := List.mem_singleton.mp hnew
    exact ⟨by simp, .inr (by simpa using hwithin)⟩

theorem Late.open (h : Late size budget parts) {item : α}
    (hpast : ∀ last ∈ parts.getLast?, budget < weight size last + size item) : Late size budget (parts ++ [[item]]) := by
  apply List.IsChain.append h (.singleton _)
  intro last hlast next hnext
  obtain rfl : [item] = next := by simpa using hnext
  intro first hfirst
  obtain rfl : item = first := by simpa using hfirst
  exact hpast last hlast

theorem Late.extend (h : Late size budget (parts ++ [part])) (hpart : part ≠ []) (item : α) :
    Late size budget (parts ++ [part ++ [item]]) := by
  obtain ⟨hparts, -, hjoin⟩ := List.isChain_append.mp h
  apply List.isChain_append.mpr
  refine ⟨hparts, .singleton _, ?_⟩
  intro last hlast next hnext
  obtain rfl : part ++ [item] = next := by simpa using hnext
  intro first hfirst
  apply hjoin last hlast part (by simp) first
  rwa [List.head?_append_of_ne_nil _ hpart] at hfirst

/-- What is left after the first part of a late cut is no longer than what is left after the first part of any cut of as
much or more. -/
theorem Late.ahead {rest rest' : List α} {first : List α} (hlate : Late size budget (part :: parts)) (hne : part ≠ [])
    (hfirst : Fits size budget first) (hrest : parts.flatten = rest) (hparts : ∀ next ∈ parts, next ≠ [])
    (hsuffix : part ++ rest <:+ first ++ rest') : rest <:+ rest' := by
  have hown : rest <:+ first ++ rest' := (List.suffix_append part rest).trans hsuffix
  by_contra hnot
  have hshorter : rest'.length < rest.length := by
    by_contra hlonger
    exact hnot (List.suffix_of_suffix_length_le hown (List.suffix_append first rest') (Nat.not_lt.mp hlonger))
  -- what lies between the two ends was in the first part of the other cut, together with all of ours
  obtain ⟨between, hbetween⟩ := List.suffix_of_suffix_length_le (List.suffix_append first rest') hown hshorter.le
  obtain ⟨front, hfront⟩ := hsuffix
  have hsplit : first = front ++ (part ++ between) := by
    rw [← hbetween, ← List.append_assoc part, ← List.append_assoc front] at hfront
    exact (List.append_cancel_right hfront).symm
  cases between with
  | nil =>
      rw [List.nil_append] at hbetween
      rw [hbetween] at hshorter
      exact lt_irrefl _ hshorter
  | cons item between =>
      obtain ⟨next, after, rfl⟩ : ∃ next after, parts = next :: after := by
        cases parts with
        | nil => rw [← hbetween] at hrest; cases hrest
        | cons next after => exact ⟨next, after, rfl⟩
      have hhead : item ∈ next.head? := by
        obtain ⟨head, tail, rfl⟩ := List.exists_cons_of_ne_nil (hparts next List.mem_cons_self)
        have hsame : head :: (tail ++ after.flatten) = item :: (between ++ rest') := hrest.trans hbetween.symm
        rw [(List.cons.inj hsame).1]
        exact Option.mem_some_self item
      have hpast := (List.isChain_cons_cons.mp hlate).1 item hhead
      have hlength : first.length ≠ 1 := by
        have hpos := List.length_pos_iff.mpr hne
        rw [hsplit]
        simp only [List.length_append, List.length_cons]
        omega
      have hwithin := hfirst.within.resolve_left hlength
      rw [hsplit] at hwithin
      simp only [weight_append, weight_cons] at hwithin
      omega

theorem Late.fewest (hlate : Late size budget parts) (hcut : IsCut size budget items parts)
    (hother : IsCut size budget items' other) (hsuffix : items <:+ items') : parts.length ≤ other.length := by
  induction other generalizing parts items items' with
  | nil =>
      obtain rfl : [] = items' := hother.flatten
      obtain rfl := List.suffix_nil.mp hsuffix
      have hnone : parts = [] := by
        apply List.eq_nil_iff_forall_not_mem.mpr
        intro part hpart
        exact (hcut.fits part hpart).ne_nil (List.flatten_eq_nil_iff.mp hcut.flatten part hpart)
      rw [hnone]
  | cons first other ih =>
      cases parts with
      | nil => exact Nat.zero_le _
      | cons part parts =>
          obtain rfl := hcut.flatten
          obtain rfl := hother.flatten
          have hahead : parts.flatten <:+ other.flatten :=
            hlate.ahead (hcut.fits part List.mem_cons_self).ne_nil (hother.fits first List.mem_cons_self) rfl
              (fun next hnext => (hcut.fits next (List.mem_cons_of_mem _ hnext)).ne_nil) hsuffix
          apply Nat.succ_le_succ
          apply ih hlate.tail ⟨rfl, fun next hnext => hcut.fits next (List.mem_cons_of_mem _ hnext)⟩
            ⟨rfl, fun next hnext => hother.fits next (List.mem_cons_of_mem _ hnext)⟩ hahead

/-- Two parts of a late cut that are next to each other are more than the budget, so that there cannot be many. -/
theorem Late.length_le (hlate : Late size budget parts) (hcut : IsCut size budget items parts) :
    (parts.length - 1) * (budget + 1) ≤ 2 * weight size items := by
  have hcons : ∀ (parts : List (List α)) (part : List α), Late size budget (part :: parts) → (∀ next ∈ parts, next ≠ []) →
      parts.length * (budget + 1) + weight size part ≤ 2 * weight size (part ++ parts.flatten) := by
    intro parts
    induction parts with
    | nil =>
        intro part _ _
        simp
        omega
    | cons next parts ih =>
        intro part hlate hne
        obtain ⟨hpast, htail⟩ := List.isChain_cons_cons.mp hlate
        obtain ⟨item, rest, rfl⟩ := List.exists_cons_of_ne_nil (hne next List.mem_cons_self)
        have hadjacent := hpast item (by simp)
        have hrest := ih (item :: rest) htail fun other hother => hne other (List.mem_cons_of_mem _ hother)
        simp only [List.flatten_cons, weight_append, weight_cons, List.length_cons, Nat.succ_mul] at hrest ⊢
        omega
  obtain rfl := hcut.flatten
  cases parts with
  | nil => simp
  | cons part parts =>
      have hbound := hcons parts part hlate fun next hnext => (hcut.fits next (List.mem_cons_of_mem _ hnext)).ne_nil
      rw [List.length_cons, Nat.add_sub_cancel, List.flatten_cons]
      exact (Nat.le_add_right _ _).trans hbound

end Lemmas

end Cuts
