import Mathlib.Data.List.Infix

/-! `LIKE` patterns over characters: what a pattern says, which texts match it, and what text every match has to hold. -/

namespace Like

/-- A piece of a pattern. -/
inductive Token where
  | literal (c : Char)
  | anyChar
  | anyText
  deriving DecidableEq, Repr

/-- A pattern read from left to right. A backslash makes the next character literal; at the end it stands for itself. -/
def tokens : List Char → List Token
  | '\\' :: c :: rest => .literal c :: tokens rest
  | '%' :: rest => .anyText :: tokens rest
  | '_' :: rest => .anyChar :: tokens rest
  | c :: rest => .literal c :: tokens rest
  | [] => []

/-- The texts a pattern matches. -/
inductive Matches : List Token → List Char → Prop where
  | nil : Matches [] []
  | literal {pattern : List Token} {text : List Char} (c : Char) (h : Matches pattern text) :
      Matches (.literal c :: pattern) (c :: text)
  | anyChar {pattern : List Token} {text : List Char} (c : Char) (h : Matches pattern text) :
      Matches (.anyChar :: pattern) (c :: text)
  | anyText {pattern : List Token} {text : List Char} (skipped : List Char) (h : Matches pattern text) :
      Matches (.anyText :: pattern) (skipped ++ text)

/-- The literal text before the first wildcard, and the runs of literal text after it. -/
def split : List Token → List Char × List (List Char)
  | [] => ([], [])
  | .literal c :: pattern => (c :: (split pattern).1, (split pattern).2)
  | .anyChar :: pattern | .anyText :: pattern => ([], (split pattern).1 :: (split pattern).2)

/-- The text of a pattern between its wildcards. -/
def literalRuns (pattern : List Token) : List (List Char) := (split pattern).1 :: (split pattern).2

theorem Matches.split_isInfix {pattern : List Token} {text : List Char} (h : Matches pattern text) :
    (split pattern).1 <+: text ∧ ∀ run ∈ (split pattern).2, run <:+: text := by
  induction h with
  | nil => exact ⟨List.prefix_refl [], fun run hrun => by cases hrun⟩
  | literal c _ ih =>
      exact ⟨(List.prefix_cons_inj c).mpr ih.1, fun run hrun => List.infix_cons (ih.2 run hrun)⟩
  | anyChar c _ ih =>
      refine ⟨List.nil_prefix, fun run hrun => List.infix_cons ?_⟩
      rcases List.mem_cons.mp hrun with rfl | hrun
      · exact ih.1.isInfix
      · exact ih.2 run hrun
  | anyText skipped _ ih =>
      refine ⟨List.nil_prefix, fun run hrun => ?_⟩
      rcases List.mem_cons.mp hrun with rfl | hrun
      · exact List.infix_append_of_infix_right ih.1.isInfix
      · exact List.infix_append_of_infix_right (ih.2 run hrun)

/-- Every run of literal text stands in every match. -/
theorem Matches.literalRuns_isInfix {pattern : List Token} {text : List Char} (h : Matches pattern text) :
    ∀ run ∈ literalRuns pattern, run <:+: text := by
  intro run hrun
  rcases List.mem_cons.mp hrun with rfl | hrun
  · exact h.split_isInfix.1.isInfix
  · exact h.split_isInfix.2 run hrun

/-- The match in which one character stands for each wildcard. -/
def fill (filler : Char) : List Token → List Char
  | [] => []
  | .literal c :: pattern => c :: fill filler pattern
  | .anyChar :: pattern | .anyText :: pattern => filler :: fill filler pattern

theorem matches_fill (filler : Char) (pattern : List Token) : Matches pattern (fill filler pattern) := by
  induction pattern with
  | nil => exact .nil
  | cons token pattern ih =>
      cases token with
      | literal c => exact .literal c ih
      | anyChar => exact .anyChar filler ih
      | anyText => exact .anyText [filler] ih

/-- A filled-in pattern is its literal runs, with the filler between them. -/
theorem fill_eq (filler : Char) (pattern : List Token) :
    fill filler pattern = (split pattern).1 ++ (split pattern).2.flatMap fun run => filler :: run := by
  induction pattern with
  | nil => rfl
  | cons token pattern ih =>
      cases token with
      | literal c => exact congrArg (c :: ·) ih
      | anyChar | anyText =>
          rw [fill, split, ih, List.nil_append, List.flatMap_cons, List.cons_append]

end Like
