import LocalTables.Columnar.Arrow
import Mathlib.Data.Countable.Basic
import Mathlib.Logic.Equiv.List
import Mathlib.Tactic.DeriveCountable

/-! There are no more types than numbers: a type is written out, and what is written out is told by a number. So a fingerprint
can tell all lists of columns apart. -/

namespace LocalTables

deriving instance Countable for TimeUnit
deriving instance Countable for IntervalUnit
instance countable_char : Countable Char := Function.Injective.countable (f := Char.toNat) fun _ _ h => Char.toNat_inj.mp h
instance countable_string : Countable String :=
  Function.Injective.countable (f := String.toList) fun _ _ h => String.toList_inj.mp h
deriving instance Countable for LeafType
deriving instance Countable for ListLayout
deriving instance Countable for UnionMode

/-- What a type is written out as. -/
inductive DataType.Token where
  | leaf (type : LeafType)
  | list (layout : ListLayout)
  | struct
  | union (mode : UnionMode)
  | dictionary (key : LeafType)
  | runEndEncoded
  | field (name : String) (nullable : Bool)
  | variant (id : Int)
  | stop
  deriving Countable

namespace DataType

mutual

/-- A type written out, each list with an end. -/
def tokens : DataType → List Token
  | leaf type => [.leaf type]
  | list layout field => .list layout :: fieldTokens field
  | struct fields => .struct :: fieldsTokens fields
  | union variants mode => .union mode :: variantsTokens variants
  | dictionary key value => .dictionary key :: tokens value
  | runEndEncoded runEnds values => .runEndEncoded :: (fieldTokens runEnds ++ fieldTokens values)

def fieldTokens : Field DataType → List Token
  | ⟨name, type, nullable⟩ => .field name nullable :: tokens type

def fieldsTokens : List (Field DataType) → List Token
  | [] => [.stop]
  | field :: fields => fieldTokens field ++ fieldsTokens fields

def variantsTokens : List (Int × Field DataType) → List Token
  | [] => [.stop]
  | (id, field) :: variants => .variant id :: (fieldTokens field ++ variantsTokens variants)

end

mutual

theorem tokens_inj : ∀ (a b : DataType) {rest rest' : List Token}, a.tokens ++ rest = b.tokens ++ rest' → a = b ∧ rest = rest'
  | leaf type, b, rest, rest', h => by
      cases b <;> simp_all [tokens]
  | list layout field, b, rest, rest', h => by
      cases b with
      | list layout' field' =>
          rw [tokens, tokens, List.cons_append, List.cons_append, List.cons.injEq, Token.list.injEq] at h
          obtain ⟨rfl, rfl⟩ := fieldTokens_inj field field' h.2
          exact ⟨by rw [h.1], rfl⟩
      | _ => simp [tokens] at h
  | struct fields, b, rest, rest', h => by
      cases b with
      | struct fields' =>
          rw [tokens, tokens, List.cons_append, List.cons_append, List.cons.injEq] at h
          obtain ⟨rfl, rfl⟩ := fieldsTokens_inj fields fields' h.2
          exact ⟨rfl, rfl⟩
      | _ => simp [tokens] at h
  | union variants mode, b, rest, rest', h => by
      cases b with
      | union variants' mode' =>
          rw [tokens, tokens, List.cons_append, List.cons_append, List.cons.injEq, Token.union.injEq] at h
          obtain ⟨rfl, rfl⟩ := variantsTokens_inj variants variants' h.2
          exact ⟨by rw [h.1], rfl⟩
      | _ => simp [tokens] at h
  | dictionary key value, b, rest, rest', h => by
      cases b with
      | dictionary key' value' =>
          rw [tokens, tokens, List.cons_append, List.cons_append, List.cons.injEq, Token.dictionary.injEq] at h
          obtain ⟨rfl, rfl⟩ := tokens_inj value value' h.2
          exact ⟨by rw [h.1], rfl⟩
      | _ => simp [tokens] at h
  | runEndEncoded runEnds values, b, rest, rest', h => by
      cases b with
      | runEndEncoded runEnds' values' =>
          rw [tokens, tokens, List.cons_append, List.cons_append, List.cons.injEq, List.append_assoc, List.append_assoc] at h
          obtain ⟨rfl, hvalues⟩ := fieldTokens_inj runEnds runEnds' h.2
          obtain ⟨rfl, rfl⟩ := fieldTokens_inj values values' hvalues
          exact ⟨rfl, rfl⟩
      | _ => simp [tokens] at h

theorem fieldTokens_inj : ∀ (a b : Field DataType) {rest rest' : List Token},
    fieldTokens a ++ rest = fieldTokens b ++ rest' → a = b ∧ rest = rest'
  | ⟨name, type, nullable⟩, ⟨name', type', nullable'⟩, rest, rest', h => by
      rw [fieldTokens, fieldTokens, List.cons_append, List.cons_append, List.cons.injEq, Token.field.injEq] at h
      obtain ⟨rfl, rfl⟩ := tokens_inj type type' h.2
      exact ⟨by rw [h.1.1, h.1.2], rfl⟩

theorem fieldsTokens_inj : ∀ (as bs : List (Field DataType)) {rest rest' : List Token},
    fieldsTokens as ++ rest = fieldsTokens bs ++ rest' → as = bs ∧ rest = rest'
  | [], [], rest, rest', h => ⟨rfl, by simpa [fieldsTokens] using h⟩
  | [], ⟨_, _, _⟩ :: bs, rest, rest', h => by simp [fieldsTokens, fieldTokens] at h
  | ⟨_, _, _⟩ :: as, [], rest, rest', h => by simp [fieldsTokens, fieldTokens] at h
  | a :: as, b :: bs, rest, rest', h => by
      rw [fieldsTokens, fieldsTokens, List.append_assoc, List.append_assoc] at h
      obtain ⟨rfl, hmore⟩ := fieldTokens_inj a b h
      obtain ⟨rfl, rfl⟩ := fieldsTokens_inj as bs hmore
      exact ⟨rfl, rfl⟩

theorem variantsTokens_inj : ∀ (as bs : List (Int × Field DataType)) {rest rest' : List Token},
    variantsTokens as ++ rest = variantsTokens bs ++ rest' → as = bs ∧ rest = rest'
  | [], [], rest, rest', h => ⟨rfl, by simpa [variantsTokens] using h⟩
  | [], (_, _) :: bs, rest, rest', h => by simp [variantsTokens] at h
  | (_, _) :: as, [], rest, rest', h => by simp [variantsTokens] at h
  | (id, a) :: as, (id', b) :: bs, rest, rest', h => by
      rw [variantsTokens, variantsTokens, List.cons_append, List.cons_append, List.cons.injEq, Token.variant.injEq,
        List.append_assoc, List.append_assoc] at h
      obtain ⟨rfl, hmore⟩ := fieldTokens_inj a b h.2
      obtain ⟨rfl, rfl⟩ := variantsTokens_inj as bs hmore
      exact ⟨by rw [h.1], rfl⟩

end

/-- There are no more lists of columns than numbers. -/
instance : Countable (List (Field DataType)) := Function.Injective.countable (f := fieldsTokens) fun as bs h =>
  (fieldsTokens_inj as bs (congrArg (· ++ []) h)).1

end DataType

instance : Countable (Schema DataType) := Function.Injective.countable (f := fun schema => (schema.fields, schema.metadata))
  fun schema other h => by
    cases schema
    cases other
    cases h
    rfl

section Numbering

variable {α : Type} [DecidableEq α] [Countable α]

/-- A number for everything of a countable type, with those that are known first. -/
noncomputable def numbering (known : List α) (item : α) : Nat :=
  if known.idxOf item < known.length then known.idxOf item
  else known.length + Classical.choose (exists_injective_nat α) item

theorem numbering_inj (known : List α) : Function.Injective (numbering known) := by
  intro item other h
  unfold numbering at h
  by_cases hitem : known.idxOf item < known.length
  · rw [if_pos hitem] at h
    by_cases hother : known.idxOf other < known.length
    · rw [if_pos hother] at h
      exact (List.idxOf_inj (List.idxOf_lt_length_iff.mp hitem)).mp h
    · rw [if_neg hother] at h
      omega
  · rw [if_neg hitem] at h
    by_cases hother : known.idxOf other < known.length
    · rw [if_pos hother] at h
      omega
    · rw [if_neg hother] at h
      apply Classical.choose_spec (exists_injective_nat α)
      omega

end Numbering

end LocalTables
