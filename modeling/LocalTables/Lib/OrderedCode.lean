import Mathlib.Data.List.Basic
import Mathlib.Data.List.Forall2

/-! Codes into words over an ordered alphabet, words compared letter by letter. A code orders when the first place at
which two code words differ decides, whatever follows them. Such a code keeps the order, no code word is a proper
beginning of another, and code words may be written one after the other. -/

namespace OrderedCode

open Std

variable {α β γ κ : Type} [Ord α]

theorem compare_swap [OrientedOrd α] (a b : α) : compare a b = (compare b a).swap := OrientedCmp.eq_swap

/-- The code words of values in the domain compare as the values do, and what follows two equal ones decides next. -/
def Orders (domain : β → Prop) (cmp : β → β → Ordering) (code : β → List α) : Prop :=
  ∀ x y, domain x → domain y → ∀ s t, compare (code x ++ s) (code y ++ t) = (cmp x y).then (compare s t)

namespace Orders

variable {domain : β → Prop} {cmp : β → β → Ordering} {code : β → List α}

theorem compare_eq (h : Orders domain cmp code) {x y : β} (hx : domain x) (hy : domain y) :
    compare (code x) (code y) = cmp x y := by
  have hends := h x y hx hy [] []
  rw [List.append_nil, List.append_nil, List.compare_nil_nil, Ordering.then_eq] at hends
  exact hends

theorem code_eq_iff [LawfulEqOrd α] (h : Orders domain cmp code) {x y : β} (hx : domain x) (hy : domain y) :
    code x = code y ↔ cmp x y = .eq := by
  rw [← h.compare_eq hx hy, Std.compare_eq_iff_eq]

/-- No code word is a proper beginning of another. -/
theorem eq_of_isPrefix [LawfulEqOrd α] (h : Orders domain cmp code) {x y : β} (hx : domain x) (hy : domain y)
    (hxy : code x <+: code y) : code x = code y := by
  obtain ⟨rest, hrest⟩ := hxy
  have hends := h x y hx hy rest []
  rw [hrest, List.append_nil, Std.compare_self] at hends
  exact (h.code_eq_iff hx hy).mpr (Ordering.then_eq_eq.mp hends.symm).1

theorem congr {domain' : β → Prop} {cmp' : β → β → Ordering} {code' : β → List α} (h : Orders domain cmp code)
    (hdomain : ∀ x, domain' x → domain x) (hcmp : ∀ x y, domain' x → domain' y → cmp' x y = cmp x y)
    (hcode : ∀ x, domain' x → code' x = code x) : Orders domain' cmp' code' := by
  intro x y hx hy s t
  rw [hcode x hx, hcode y hy, hcmp x y hx hy]
  exact h x y (hdomain x hx) (hdomain y hy) s t

end Orders

theorem compare_append {a b : List α} (h : a.length = b.length) (s t : List α) :
    compare (a ++ s) (b ++ t) = (compare a b).then (compare s t) := by
  induction a generalizing b with
  | nil =>
      cases b with
      | nil => rfl
      | cons _ _ => simp at h
  | cons x a ih =>
      cases b with
      | nil => simp at h
      | cons y b =>
          have hlength : a.length = b.length := by simpa using h
          rw [List.cons_append, List.cons_append, List.compare_cons_cons, List.compare_cons_cons, ih hlength,
            Ordering.then_assoc]

/-- Code words of one length only have to compare as the values do. -/
theorem orders_of_length {domain : β → Prop} {cmp : β → β → Ordering} {code : β → List α} (width : Nat)
    (hlength : ∀ x, domain x → (code x).length = width)
    (hcmp : ∀ x y, domain x → domain y → compare (code x) (code y) = cmp x y) : Orders domain cmp code := by
  intro x y hx hy s t
  rw [compare_append ((hlength x hx).trans (hlength y hy).symm), hcmp x y hx hy]

section Padded

/-- The beginning of a word, filled up to a width. -/
def padded (zero : α) (width : Nat) (word : List α) : List α :=
  word.take width ++ List.replicate (width - (word.take width).length) zero

omit [Ord α] in
theorem padded_nil (zero : α) (width : Nat) : padded zero width [] = List.replicate width zero := by
  rw [padded, List.take_nil, List.nil_append]
  rfl

omit [Ord α] in
theorem padded_cons (zero : α) (width : Nat) (letter : α) (word : List α) :
    padded zero (width + 1) (letter :: word) = letter :: padded zero width word := by
  rw [padded, padded, List.take_succ_cons, List.length_cons, Nat.add_sub_add_right]
  rfl

omit [Ord α] in
theorem length_padded (zero : α) (width : Nat) (word : List α) : (padded zero width word).length = width := by
  rw [padded, List.length_append, List.length_replicate, List.length_take]
  omega

theorem replicate_isLE {zero : α} (hzero : ∀ letter, (compare zero letter).isLE = true) {width : Nat} {word : List α}
    (h : word.length = width) : (compare (List.replicate width zero) word).isLE = true := by
  induction word generalizing width with
  | nil =>
      subst h
      rfl
  | cons letter word ih =>
      subst h
      rw [List.length_cons, List.replicate_succ, List.compare_cons_cons, Ordering.isLE_then_iff_and]
      exact ⟨hzero letter, .inr (ih rfl)⟩

/-- Cutting words off or filling them up turns no order around. -/
theorem padded_isLE {zero : α} (hzero : ∀ letter, (compare zero letter).isLE = true) (width : Nat) {a b : List α}
    (h : (compare a b).isLE = true) : (compare (padded zero width a) (padded zero width b)).isLE = true := by
  induction width generalizing a b with
  | zero =>
      rw [padded, padded, List.take_zero, List.take_zero]
      rfl
  | succ width ih =>
      cases a with
      | nil =>
          rw [padded_nil]
          exact replicate_isLE hzero (length_padded zero (width + 1) b)
      | cons x a =>
          cases b with
          | nil =>
              rw [List.compare_cons_nil] at h
              cases h
          | cons y b =>
              rw [List.compare_cons_cons, Ordering.isLE_then_iff_and] at h
              rw [padded_cons, padded_cons, List.compare_cons_cons, Ordering.isLE_then_iff_and]
              exact ⟨h.1, h.2.imp_right ih⟩

end Padded

section Nullable

/-- Null first. -/
def nullFirst (cmp : β → β → Ordering) : Option β → Option β → Ordering
  | none, none => .eq
  | none, some _ => .lt
  | some _, none => .gt
  | some x, some y => cmp x y

/-- A letter for null, or another in front of a value. -/
def nullable (null value : α) (code : β → List α) : Option β → List α
  | none => [null]
  | some x => value :: code x

theorem orders_nullable [ReflOrd α] [OrientedOrd α] {domain : β → Prop} {cmp : β → β → Ordering} {code : β → List α}
    (h : Orders domain cmp code) {null value : α} (hlt : compare null value = .lt) :
    Orders (fun x => ∀ v, x = some v → domain v) (nullFirst cmp) (nullable null value code) := by
  have hgt : compare value null = .gt := by
    rw [compare_swap, hlt]
    rfl
  intro x y hx hy s t
  cases x with
  | none =>
      cases y with
      | none =>
          rw [nullable, List.singleton_append, List.singleton_append, List.compare_cons_cons, Std.compare_self]
          rfl
      | some y =>
          rw [nullable, nullable, List.singleton_append, List.cons_append, List.compare_cons_cons, hlt]
          rfl
  | some x =>
      cases y with
      | none =>
          rw [nullable, nullable, List.singleton_append, List.cons_append, List.compare_cons_cons, hgt]
          rfl
      | some y =>
          rw [nullable, nullable, List.cons_append, List.cons_append, List.compare_cons_cons, Std.compare_self]
          exact h x y (hx x rfl) (hy y rfl) s t

end Nullable

section Escaped

variable [DecidableEq α]

/-- The word with a mark after each zero, and two zeros behind it. -/
def escaped (zero mark : α) (word : List α) : List α :=
  word.flatMap (fun letter => if letter = zero then [letter, mark] else [letter]) ++ [zero, zero]

omit [Ord α] in
theorem escaped_cons (zero mark letter : α) (word : List α) :
    escaped zero mark (letter :: word) =
      (if letter = zero then [letter, mark] else [letter]) ++ escaped zero mark word := by
  rw [escaped, List.flatMap_cons, List.append_assoc]
  rfl

/-- Escaped words compare as the words do, whatever follows: their end is below anything a longer word goes on with. -/
theorem orders_escaped [LawfulEqOrd α] [OrientedOrd α] {zero mark : α}
    (hzero : ∀ letter, letter ≠ zero → compare zero letter = .lt) (hmark : mark ≠ zero) :
    Orders (fun _ => True) compare (escaped zero mark) := by
  have hswap : ∀ {a b : α}, compare a b = .lt → compare b a = .gt := by
    intro a b h
    rw [compare_swap, h]
    rfl
  have hend : ∀ letter (word : List α) s t,
      compare (escaped zero mark [] ++ s) (escaped zero mark (letter :: word) ++ t) = .lt ∧
        compare (escaped zero mark (letter :: word) ++ t) (escaped zero mark [] ++ s) = .gt := by
    intro letter word s t
    have hnil : escaped zero mark [] = [zero, zero] := rfl
    rw [escaped_cons, hnil]
    by_cases hletter : letter = zero
    · rw [if_pos hletter, hletter]
      simp only [List.cons_append, List.compare_cons_cons, Std.compare_self, hzero mark hmark,
        hswap (hzero mark hmark)]
      exact ⟨rfl, rfl⟩
    · rw [if_neg hletter]
      simp only [List.cons_append, List.compare_cons_cons, hzero letter hletter, hswap (hzero letter hletter)]
      exact ⟨rfl, rfl⟩
  intro x y _ _ s t
  induction x generalizing y with
  | nil =>
      cases y with
      | nil =>
          rw [compare_append rfl, Std.compare_self, Std.compare_self]
      | cons letter word =>
          rw [(hend letter word s t).1, List.compare_nil_cons]
          rfl
  | cons a x ih =>
      cases y with
      | nil =>
          rw [(hend a x t s).2, List.compare_cons_nil]
          rfl
      | cons b y =>
          rw [escaped_cons, escaped_cons, List.compare_cons_cons, List.append_assoc, List.append_assoc]
          by_cases hab : a = b
          · rw [hab, compare_append rfl, Std.compare_self, Std.compare_self, ih y]
            rfl
          · -- two different letters decide, escaped or not
            have hne : compare a b ≠ .eq := fun h => hab (Std.compare_eq_iff_eq.mp h)
            have hfirst : ∀ letter : α, ∃ rest, (if letter = zero then [letter, mark] else [letter]) = letter :: rest := by
              intro letter
              by_cases hletter : letter = zero
              · exact ⟨[mark], if_pos hletter⟩
              · exact ⟨[], if_neg hletter⟩
            obtain ⟨arest, ha⟩ := hfirst a
            obtain ⟨brest, hb⟩ := hfirst b
            rw [ha, hb, List.cons_append, List.cons_append, List.compare_cons_cons]
            cases hcompare : compare a b with
            | lt => rfl
            | eq => exact absurd hcompare hne
            | gt => rfl

end Escaped

section Rows

/-- Tuples compared from the left, each place by the order of its kind. -/
def compareRow (cmp : κ → β → β → Ordering) : List κ → List β → List β → Ordering
  | k :: kinds, x :: xs, y :: ys => (cmp k x y).then (compareRow cmp kinds xs ys)
  | _, _, _ => .eq

/-- The code words of a tuple, one after the other. -/
def codeRow (code : κ → β → List α) : List κ → List β → List α
  | k :: kinds, x :: xs => code k x ++ codeRow code kinds xs
  | _, _ => []

theorem orders_row [ReflOrd α] {domain : κ → β → Prop} {cmp : κ → β → β → Ordering} {code : κ → β → List α}
    (kinds : List κ) (h : ∀ k ∈ kinds, Orders (domain k) (cmp k) (code k)) :
    Orders (List.Forall₂ domain kinds) (compareRow cmp kinds) (codeRow code kinds) := by
  induction kinds with
  | nil =>
      intro x y hx hy s t
      cases hx
      cases hy
      rfl
  | cons k kinds ih =>
      intro x y hx hy s t
      cases hx with
      | cons hx hxs =>
          cases hy with
          | cons hy hys =>
              have hrest := ih (fun k hk => h k (List.mem_cons_of_mem _ hk)) _ _ hxs hys s t
              rw [codeRow, codeRow, compareRow, List.append_assoc, List.append_assoc,
                h k List.mem_cons_self _ _ hx hy, hrest, Ordering.then_assoc]

end Rows

end OrderedCode
