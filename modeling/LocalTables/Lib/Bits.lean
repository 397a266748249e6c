import Mathlib.Data.Nat.Bitwise

/-! The bits that are set in a number, visited from the lowest up by clearing one at a time. -/

namespace Bits

/-- How many zeros stand below the lowest bit that is set. -/
def trailingZeros (word : Nat) : Nat :=
  if _h : word = 0 ∨ word % 2 = 1 then 0 else trailingZeros (word / 2) + 1
termination_by word
decreasing_by omega

/-- A number less one, where both share a bit: all but the lowest one. -/
theorem testBit_and_pred {word : Nat} (h : word ≠ 0) (i : Nat) :
    (word &&& (word - 1)).testBit i = (word.testBit i && decide (i ≠ trailingZeros word)) := by
  induction word using trailingZeros.induct generalizing i with
  | case1 word hlow =>
      rw [trailingZeros, dif_pos hlow]
      have hodd : word % 2 = 1 := hlow.resolve_left h
      rw [Nat.testBit_and]
      cases i with
      | zero =>
          have hpred : (word - 1) % 2 = 0 := by omega
          simp [Nat.testBit_zero, hpred]
      | succ i =>
          have hhalf : (word - 1) / 2 = word / 2 := by omega
          simp [Nat.testBit_succ, hhalf]
  | case2 word hlow ih =>
      rw [trailingZeros, dif_neg hlow]
      have hhalf : word / 2 ≠ 0 := by omega
      rw [Nat.testBit_and]
      cases i with
      | zero =>
          have heven : word % 2 = 0 := by omega
          simp [Nat.testBit_zero, heven]
      | succ i =>
          have hpred : (word - 1) / 2 = word / 2 - 1 := by omega
          rw [Nat.testBit_succ, Nat.testBit_succ, hpred, ← Nat.testBit_and, ih hhalf i]
          simp

theorem testBit_trailingZeros {word : Nat} (h : word ≠ 0) : word.testBit (trailingZeros word) = true := by
  induction word using trailingZeros.induct with
  | case1 word hlow =>
      rw [trailingZeros, dif_pos hlow, Nat.testBit_zero]
      exact decide_eq_true (hlow.resolve_left h)
  | case2 word hlow ih =>
      rw [trailingZeros, dif_neg hlow, Nat.testBit_succ]
      exact ih (by omega)

theorem and_pred_lt {word : Nat} (h : word ≠ 0) : word &&& (word - 1) < word := by
  have hle : word &&& (word - 1) ≤ word - 1 := Nat.and_le_right
  omega

/-- The bits that are set, from the lowest up. -/
def ones (word : Nat) : List Nat :=
  if h : word = 0 then [] else trailingZeros word :: ones (word &&& (word - 1))
termination_by word
decreasing_by exact and_pred_lt h

theorem mem_ones {word i : Nat} : i ∈ ones word ↔ word.testBit i = true := by
  induction word using ones.induct with
  | case1 => simp [ones]
  | case2 word h ih =>
      rw [ones, dif_neg h, List.mem_cons, ih, testBit_and_pred h, Bool.and_eq_true, decide_eq_true_iff]
      by_cases hlowest : i = trailingZeros word
      · subst hlowest
        simp [testBit_trailingZeros h]
      · simp [hlowest]

/-- The set bits of a row of words of `width` bits each, counted through. -/
def places (width : Nat) (words : List Nat) : List Nat :=
  words.zipIdx.flatMap fun (word, index) => (ones word).map (index * width + ·)

/-- Whether the bit at a place is set. -/
def isSet (width : Nat) (words : List Nat) (place : Nat) : Bool := (words.getD (place / width) 0).testBit (place % width)

/-- Set the bit at a place. -/
def setBit (width : Nat) (words : List Nat) (place : Nat) : List Nat :=
  words.set (place / width) (words.getD (place / width) 0 ||| 1 <<< (place % width))

theorem mem_places {width : Nat} {words : List Nat} {place : Nat} (h : isSet width words place = true) :
    place ∈ places width words := by
  rw [isSet, List.getD_eq_getElem?_getD] at h
  cases hword : words[place / width]? with
  | none =>
      rw [hword, Option.getD_none, Nat.zero_testBit] at h
      cases h
  | some word =>
      rw [hword, Option.getD_some] at h
      refine List.mem_flatMap.mpr ⟨(word, place / width), List.mem_zipIdx_iff_getElem?.mpr hword, ?_⟩
      exact List.mem_map.mpr ⟨place % width, mem_ones.mpr h, Nat.div_add_mod' place width⟩

theorem length_setBit (width : Nat) (words : List Nat) (place : Nat) : (setBit width words place).length = words.length :=
  List.length_set

/-- Setting a bit sets it, and no other is lost. -/
theorem isSet_setBit {width : Nat} {words : List Nat} {place other : Nat} (hin : place / width < words.length)
    (h : other = place ∨ isSet width words other = true) : isSet width (setBit width words place) other = true := by
  simp only [isSet, List.getD_eq_getElem?_getD] at h
  simp only [isSet, setBit, List.getD_eq_getElem?_getD]
  by_cases hword : other / width = place / width
  · rw [hword, List.getElem?_set_self hin, Option.getD_some, Nat.testBit_or, Bool.or_eq_true]
    rcases h with rfl | hset
    · exact .inr (by simp)
    · rw [hword] at hset
      exact .inl hset
  · rw [List.getElem?_set_ne (Ne.symm hword)]
    refine h.resolve_left ?_
    rintro rfl
    exact hword rfl

end Bits
