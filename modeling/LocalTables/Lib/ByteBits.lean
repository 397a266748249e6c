import Mathlib.Data.List.Basic
import Mathlib.Data.Nat.Bitwise
import Mathlib.Tactic.IntervalCases

/-! The bits of a word of bytes, the highest bit of the first byte first. Words of one length compare by the first bit
at which they differ, so a word whose bits are those of several others, each kept in its order, is monotone in them. -/

namespace ByteBits

open Std

/-- The bit at a place, of a word that goes on in zeros. -/
def bit (word : List UInt8) (place : Nat) : Bool := (word.getD (place / 8) 0).toNat.testBit (7 - place % 8)

/-- Set the bit at a place. -/
def setBit (word : List UInt8) (place : Nat) : List UInt8 :=
  word.modify (place / 8) fun byte => byte ||| (0x80 >>> UInt8.ofNat (place % 8))

theorem toNat_mask {i : Nat} (h : i < 8) : (0x80 >>> UInt8.ofNat i : UInt8).toNat = 2 ^ (7 - i) := by
  interval_cases i <;> rfl

theorem and_mask_eq_zero_iff (byte : UInt8) {i : Nat} (h : i < 8) :
    byte &&& (0x80 >>> UInt8.ofNat i) = 0 ↔ byte.toNat.testBit (7 - i) = false := by
  rw [← UInt8.toNat_inj, UInt8.toNat_and, toNat_mask h, Nat.and_two_pow]
  cases byte.toNat.testBit (7 - i) with
  | false => simp
  | true => simp

theorem testBit_or_mask (byte : UInt8) {i j : Nat} (hi : i < 8) (hj : j < 8) :
    (byte ||| (0x80 >>> UInt8.ofNat i)).toNat.testBit (7 - j) = (decide (j = i) || byte.toNat.testBit (7 - j)) := by
  have hplace : decide (7 - i = 7 - j) = decide (j = i) := by
    rw [decide_eq_decide]
    omega
  rw [UInt8.toNat_or, toNat_mask hi, Nat.testBit_or, Nat.testBit_two_pow, hplace, Bool.or_comm]

@[simp]
theorem length_setBit (word : List UInt8) (place : Nat) : (setBit word place).length = word.length :=
  List.length_modify _ _ _

theorem bit_setBit {word : List UInt8} {place : Nat} (h : place / 8 < word.length) (p : Nat) :
    bit (setBit word place) p = (decide (p = place) || bit word p) := by
  rw [bit, bit, setBit, List.getD_eq_getElem?_getD, List.getD_eq_getElem?_getD, List.getElem?_modify]
  by_cases hbyte : place / 8 = p / 8
  · rw [← hbyte, List.getElem?_eq_getElem h]
    simp only [if_true, Option.map_eq_map, Option.map_some, Option.getD_some]
    have hplace : decide (p % 8 = place % 8) = decide (p = place) := by
      rw [decide_eq_decide]
      omega
    rw [testBit_or_mask _ (Nat.mod_lt _ (by decide)) (Nat.mod_lt _ (by decide)), hplace]
  · have hne : p ≠ place := fun heq => hbyte (by rw [heq])
    simp [hbyte, hne]

theorem bit_cons_of_lt (byte : UInt8) (word : List UInt8) {place : Nat} (h : place < 8) :
    bit (byte :: word) place = byte.toNat.testBit (7 - place) := by
  rw [bit, Nat.div_eq_of_lt h, Nat.mod_eq_of_lt h]
  rfl

theorem bit_cons_add (byte : UInt8) (word : List UInt8) (place : Nat) :
    bit (byte :: word) (place + 8) = bit word place := by
  rw [bit, bit, Nat.add_div_right _ (by decide), Nat.add_mod_right]
  rfl

theorem lt_iff_exists_bit (a b : UInt8) : a < b ↔
    ∃ i < 8, (∀ j < i, a.toNat.testBit (7 - j) = b.toNat.testBit (7 - j)) ∧
      a.toNat.testBit (7 - i) = false ∧ b.toNat.testBit (7 - i) = true := by
  have hhigh : ∀ (byte : UInt8) k, 7 < k → byte.toNat.testBit k = false := by
    intro byte k hk
    refine Nat.testBit_lt_two_pow (Nat.lt_of_lt_of_le byte.toNat_lt ?_)
    exact Nat.pow_le_pow_right (by decide) hk
  rw [UInt8.lt_iff_toNat_lt]
  constructor
  · intro hlt
    obtain ⟨k, hk, habove⟩ := Nat.exists_most_significant_bit
      (n := a.toNat ^^^ b.toNat) (fun h => by rw [Nat.xor_eq_zero_iff.mp h] at hlt; omega)
    have hsame : ∀ j, k < j → a.toNat.testBit j = b.toNat.testBit j := by
      intro j hj
      have := habove j hj
      rw [Nat.testBit_xor] at this
      simpa using this
    have hdiff : a.toNat.testBit k ≠ b.toNat.testBit k := by
      rw [Nat.testBit_xor] at hk
      simpa using hk
    have hle : k ≤ 7 := by
      by_contra hgt
      exact hdiff (by rw [hhigh a k (by omega), hhigh b k (by omega)])
    refine ⟨7 - k, by omega, fun j hj => hsame (7 - j) (by omega), ?_⟩
    rw [show 7 - (7 - k) = k by omega]
    cases ha : a.toNat.testBit k with
    | false => exact ⟨rfl, by cases hb : b.toNat.testBit k <;> simp_all⟩
    | true =>
        have hb : b.toNat.testBit k = false := by cases hb : b.toNat.testBit k <;> simp_all
        have := Nat.lt_of_testBit k hb ha fun j hj => (hsame j hj).symm
        omega
  · rintro ⟨i, hi, hsame, ha, hb⟩
    refine Nat.lt_of_testBit (7 - i) ha hb fun j hj => ?_
    by_cases hin : j ≤ 7
    · have := hsame (7 - j) (by omega)
      rwa [show 7 - (7 - j) = j by omega] at this
    · rw [hhigh a j (by omega), hhigh b j (by omega)]

/-- The first place at which two words differ, the first word having a zero there. -/
def FirstBit (a b : List UInt8) (place : Nat) : Prop :=
  (∀ p < place, bit a p = bit b p) ∧ bit a place = false ∧ bit b place = true

theorem compare_eq_lt_iff {a b : List UInt8} (hlength : a.length = b.length) :
    compare a b = .lt ↔ ∃ place < 8 * a.length, FirstBit a b place := by
  induction a generalizing b with
  | nil =>
      obtain rfl : b = [] := List.length_eq_zero_iff.mp hlength.symm
      simp
  | cons x a ih =>
      cases b with
      | nil => simp at hlength
      | cons y b =>
          have hrest : a.length = b.length := by simpa using hlength
          rw [List.compare_cons_cons, Ordering.then_eq_lt]
          constructor
          · rintro (hlt | ⟨heq, hlt⟩)
            · obtain ⟨i, hi, hsame, hx, hy⟩ := (lt_iff_exists_bit x y).mp (compareOfLessAndEq_eq_lt.mp hlt)
              refine ⟨i, by rw [List.length_cons]; omega, fun p hp => ?_, ?_, ?_⟩
              · rw [bit_cons_of_lt _ _ (by omega), bit_cons_of_lt _ _ (by omega), hsame p hp]
              · rw [bit_cons_of_lt _ _ hi, hx]
              · rw [bit_cons_of_lt _ _ hi, hy]
            · obtain rfl := Std.compare_eq_iff_eq.mp heq
              obtain ⟨place, hplace, hsame, hx, hy⟩ := (ih hrest).mp hlt
              refine ⟨place + 8, by rw [List.length_cons]; omega, fun p hp => ?_, ?_, ?_⟩
              · by_cases hfirst : p < 8
                · rw [bit_cons_of_lt _ _ hfirst, bit_cons_of_lt _ _ hfirst]
                · obtain ⟨q, rfl⟩ := Nat.exists_eq_add_of_le' (Nat.le_of_not_lt hfirst)
                  rw [bit_cons_add, bit_cons_add, hsame q (by omega)]
              · rw [bit_cons_add, hx]
              · rw [bit_cons_add, hy]
          · rintro ⟨place, hplace, hsame, hx, hy⟩
            by_cases hfirst : place < 8
            · refine .inl (compareOfLessAndEq_eq_lt.mpr ((lt_iff_exists_bit x y).mpr ⟨place, hfirst, fun p hp => ?_, ?_, ?_⟩))
              · have := hsame p hp
                rwa [bit_cons_of_lt _ _ (by omega), bit_cons_of_lt _ _ (by omega)] at this
              · rwa [bit_cons_of_lt _ _ hfirst] at hx
              · rwa [bit_cons_of_lt _ _ hfirst] at hy
            · obtain ⟨q, rfl⟩ := Nat.exists_eq_add_of_le' (Nat.le_of_not_lt hfirst)
              have hxy : x = y := by
                refine Std.compare_eq_iff_eq.mp ?_
                cases hcompare : compare x y with
                | eq => rfl
                | lt =>
                    obtain ⟨i, hi, -, hxi, hyi⟩ := (lt_iff_exists_bit x y).mp (compareOfLessAndEq_eq_lt.mp hcompare)
                    have := hsame i (by omega)
                    rw [bit_cons_of_lt _ _ hi, bit_cons_of_lt _ _ hi, hxi, hyi] at this
                    cases this
                | gt =>
                    rw [OrientedCmp.gt_iff_lt] at hcompare
                    obtain ⟨i, hi, -, hyi, hxi⟩ := (lt_iff_exists_bit y x).mp (compareOfLessAndEq_eq_lt.mp hcompare)
                    have := hsame i (by omega)
                    rw [bit_cons_of_lt _ _ hi, bit_cons_of_lt _ _ hi, hxi, hyi] at this
                    cases this
              subst hxy
              refine .inr ⟨Std.compare_self, (ih hrest).mpr ⟨q, by rw [List.length_cons] at hplace; omega, fun p hp => ?_, ?_, ?_⟩⟩
              · have := hsame (p + 8) (by omega)
                rwa [bit_cons_add, bit_cons_add] at this
              · rwa [bit_cons_add] at hx
              · rwa [bit_cons_add] at hy

/-- Words of one length with the same bits are the same. -/
theorem eq_of_bits {a b : List UInt8} (hlength : a.length = b.length) (h : ∀ place < 8 * a.length, bit a place = bit b place) :
    a = b := by
  refine Std.compare_eq_iff_eq.mp ?_
  cases hcompare : compare a b with
  | eq => rfl
  | lt =>
      obtain ⟨place, hplace, -, hx, hy⟩ := (compare_eq_lt_iff hlength).mp hcompare
      have := h place hplace
      rw [hx, hy] at this
      cases this
  | gt =>
      rw [OrientedCmp.gt_iff_lt] at hcompare
      obtain ⟨place, hplace, -, hy, hx⟩ := (compare_eq_lt_iff hlength.symm).mp hcompare
      have := h place (by omega)
      rw [hx, hy] at this
      cases this

/-- A word that has, at each place, some bit of one of several words, the bits of each in order, is monotone in them. -/
theorem isLE_interleaved {ι : Type} (xs ys : ι → List UInt8) {left right : List UInt8} (source : Nat → ι × Nat)
    (hlength : left.length = right.length) (hlengths : ∀ i, (xs i).length = (ys i).length)
    (hleft : ∀ p < 8 * left.length, bit left p = bit (xs (source p).1) (source p).2)
    (hright : ∀ p < 8 * left.length, bit right p = bit (ys (source p).1) (source p).2)
    (hin : ∀ p < 8 * left.length, (source p).2 < 8 * (xs (source p).1).length)
    (hearlier : ∀ p < 8 * left.length, ∀ b < (source p).2, ∃ q < p, source q = ((source p).1, b))
    (hle : ∀ i, (compare (xs i) (ys i)).isLE = true) : (compare left right).isLE = true := by
  cases hcompare : compare left right with
  | lt => rfl
  | eq => rfl
  | gt =>
      -- at the first bit that differs, one of the words differs first too
      rw [OrientedCmp.gt_iff_lt] at hcompare
      obtain ⟨place, hplace, hsame, hy, hx⟩ := (compare_eq_lt_iff hlength.symm).mp hcompare
      have hplace' : place < 8 * left.length := by omega
      rw [hleft place hplace'] at hx
      rw [hright place hplace'] at hy
      have hlt : compare (ys (source place).1) (xs (source place).1) = .lt := by
        refine (compare_eq_lt_iff (hlengths _).symm).mpr ⟨(source place).2, ?_, fun b hb => ?_, hy, hx⟩
        · rw [← hlengths]
          exact hin place hplace'
        · obtain ⟨q, hq, hsource⟩ := hearlier place hplace' b hb
          have hbit := hsame q hq
          rw [hleft q (by omega), hright q (by omega), hsource] at hbit
          exact hbit
      have hswap := hle (source place).1
      rw [show compare (xs (source place).1) (ys (source place).1) = _ from OrientedCmp.eq_swap, hlt] at hswap
      cases hswap

end ByteBits
