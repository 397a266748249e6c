import LocalTables.Lib.Except

/-! Computations that end with a value, with an error they report, or with a panic. A number is a machine word: an
operation that leaves the range of words panics, and so does a slice that leaves its list. -/

/-- How a computation ends that has no value. -/
inductive Fault (ε : Type) where
  | error (e : ε)
  | panic (message : String)
  deriving DecidableEq, Repr

abbrev Outcome (ε α : Type) := Except (Fault ε) α

namespace Outcome

variable {ε α β : Type}

/-- The computation panics. -/
def panic (message : String) : Outcome ε α := .error (.panic message)

/-- The computation reports an error. -/
def fail (e : ε) : Outcome ε α := .error (.error e)

/-- What a fallible call returned, passed on. -/
def ofExcept : Except ε α → Outcome ε α
  | .ok a => .ok a
  | .error e => .error (.error e)

def add (limit a b : Nat) : Outcome ε Nat :=
  if a + b < limit then .ok (a + b) else panic "attempt to add with overflow"

def sub (a b : Nat) : Outcome ε Nat :=
  if b ≤ a then .ok (a - b) else panic "attempt to subtract with overflow"

def mul (limit a b : Nat) : Outcome ε Nat :=
  if a * b < limit then .ok (a * b) else panic "attempt to multiply with overflow"

/-- The elements from `start` up to `stop`. -/
def slice (xs : List α) (start stop : Nat) : Outcome ε (List α) :=
  if start ≤ stop ∧ stop ≤ xs.length then .ok ((xs.drop start).take (stop - start)) else panic "range out of bounds"

section Values

variable {limit a b c start stop : Nat} {xs ys : List α}

@[simp] theorem ofExcept_eq_ok {x : Except ε α} {a : α} : ofExcept x = .ok a ↔ x = .ok a := by
  cases x with
  | ok => simp [ofExcept]
  | error => simp [ofExcept]

@[simp] theorem ofExcept_ok (a : α) : ofExcept (.ok a : Except ε α) = .ok a := rfl

theorem add_eq (h : a + b < limit) : (add limit a b : Outcome ε Nat) = .ok (a + b) := if_pos h

theorem sub_eq (h : b ≤ a) : (sub a b : Outcome ε Nat) = .ok (a - b) := if_pos h

theorem mul_eq (h : a * b < limit) : (mul limit a b : Outcome ε Nat) = .ok (a * b) := if_pos h

theorem slice_eq (h : start ≤ stop) (h' : stop ≤ xs.length) :
    (slice xs start stop : Outcome ε (List α)) = .ok ((xs.drop start).take (stop - start)) := if_pos ⟨h, h'⟩

theorem add_eq_ok : (add limit a b : Outcome ε Nat) = .ok c ↔ a + b < limit ∧ c = a + b := by
  unfold add
  split
  · next h => exact ⟨fun heq => ⟨h, (Except.ok.inj heq).symm⟩, fun heq => congrArg Except.ok heq.2.symm⟩
  · next h => exact ⟨(nomatch ·), fun heq => absurd heq.1 h⟩

theorem slice_eq_ok : (slice xs start stop : Outcome ε (List α)) = .ok ys ↔
    start ≤ stop ∧ stop ≤ xs.length ∧ ys = (xs.drop start).take (stop - start) := by
  unfold slice
  split
  · next h => exact ⟨fun heq => ⟨h.1, h.2, (Except.ok.inj heq).symm⟩, fun heq => congrArg Except.ok heq.2.2.symm⟩
  · next h => exact ⟨(nomatch ·), fun heq => absurd ⟨heq.1, heq.2.1⟩ h⟩

end Values

/-- The computation has a value. -/
def Returns (x : Outcome ε α) : Prop := ∃ a, x = .ok a

/-- The computation does not panic. -/
def NoPanic (x : Outcome ε α) : Prop := ∀ message, x ≠ .error (.panic message)

/-- Elements taken one after the other are as `P` says, as far as a computation gets that ends with the first element for
which it has no value. -/
def InTurn (f : α → Outcome ε β) (P : α → Prop) : List α → Prop
  | [] => True
  | a :: as => P a ∧ (Returns (f a) → InTurn f P as)

namespace Returns

theorem forall_iff {x : Outcome ε α} {p : Prop} : (∀ a, x = .ok a → p) ↔ (Returns x → p) :=
  ⟨fun h ⟨a, ha⟩ => h a ha, fun h a ha => h ⟨a, ha⟩⟩

theorem mapM_iff {f : α → Outcome ε β} {as : List α} : Returns (as.mapM f) ↔ ∀ a ∈ as, Returns (f a) := by
  constructor
  · rintro ⟨bs, hbs⟩ a ha
    obtain ⟨b, -, hb⟩ := LocalTables.mapM_exists hbs ha
    exact ⟨b, hb⟩
  · exact LocalTables.mapM_total

end Returns

namespace InTurn

variable {f : α → Outcome ε β} {P Q : α → Prop}

theorem congr {as : List α} (h : ∀ a ∈ as, P a ↔ Q a) : InTurn f P as ↔ InTurn f Q as := by
  induction as with
  | nil => exact Iff.rfl
  | cons a as ih =>
      rw [InTurn, InTurn, h a List.mem_cons_self, ih fun b hb => h b (List.mem_cons_of_mem _ hb)]

/-- Where being as `P` says is enough for a value, all the elements are. -/
theorem all {as : List α} (hreturns : ∀ a ∈ as, P a → Returns (f a)) : InTurn f P as ↔ ∀ a ∈ as, P a := by
  induction as with
  | nil => simp [InTurn]
  | cons a as ih =>
      rw [InTurn, ih fun b hb => hreturns b (List.mem_cons_of_mem _ hb), List.forall_mem_cons]
      constructor
      · rintro ⟨ha, hrest⟩
        exact ⟨ha, hrest (hreturns a List.mem_cons_self ha)⟩
      · rintro ⟨ha, hrest⟩
        exact ⟨ha, fun _ => hrest⟩

theorem range' {f : Nat → Outcome ε β} {P : Nat → Prop} {count : Nat} (start : Nat) :
    InTurn f P (List.range' start count) ↔
      ∀ i, start ≤ i → i < start + count → (∀ j, start ≤ j → j < i → Returns (f j)) → P i := by
  induction count generalizing start with
  | zero => exact ⟨fun _ i hle hlt => absurd hlt (Nat.not_lt.mpr hle), fun _ => trivial⟩
  | succ count ih =>
      rw [List.range'_succ, InTurn, ih]
      constructor
      · rintro ⟨hfirst, hrest⟩ i hle hlt hbefore
        by_cases hi : i = start
        · exact hi ▸ hfirst
        · refine hrest (hbefore start (Nat.le_refl _) (by omega)) i (by omega) (by omega) ?_
          exact fun j hj => hbefore j (Nat.le_of_succ_le hj)
      · intro h
        refine ⟨h start (Nat.le_refl _) (by omega) fun j hle hlt => absurd hlt (Nat.not_lt.mpr hle), ?_⟩
        intro hreturns i hle hlt hbefore
        apply h i (by omega) (by omega)
        intro j hj hji
        by_cases hfirst : j = start
        · exact hfirst ▸ hreturns
        · exact hbefore j (by omega) hji

end InTurn

namespace NoPanic

variable {limit a b start stop : Nat}

theorem ok (a : α) : NoPanic (.ok a : Outcome ε α) := fun _ => nofun

theorem pure (a : α) : NoPanic (Pure.pure a : Outcome ε α) := ok a

theorem fail (e : ε) : NoPanic (Outcome.fail e : Outcome ε α) := fun _ => nofun

theorem ofExcept (x : Except ε α) : NoPanic (Outcome.ofExcept x) := by
  cases x with
  | ok a => exact ok a
  | error e => exact fun _ => nofun

/-- A sequence does not panic exactly if its first part does not, and the rest does not after the value of it. -/
theorem bind_iff {x : Outcome ε α} {f : α → Outcome ε β} :
    NoPanic (x >>= f) ↔ NoPanic x ∧ ∀ a, x = .ok a → NoPanic (f a) := by
  cases x with
  | ok a => exact ⟨fun h => ⟨ok a, fun _ hsame => Except.ok.inj hsame ▸ h⟩, fun h => h.2 a rfl⟩
  | error fault =>
      cases fault with
      | error e => exact ⟨fun _ => ⟨fail e, fun _ => nofun⟩, fun _ => fun _ => nofun⟩
      | panic message => exact ⟨fun h => absurd rfl (h message), fun h => absurd rfl (h.1 message)⟩

theorem bind {x : Outcome ε α} {f : α → Outcome ε β} (hx : NoPanic x) (hf : ∀ a, x = .ok a → NoPanic (f a)) :
    NoPanic (x >>= f) := bind_iff.mpr ⟨hx, hf⟩

theorem mapM_iff {f : α → Outcome ε β} {as : List α} : NoPanic (as.mapM f) ↔ InTurn f (fun a => NoPanic (f a)) as := by
  induction as with
  | nil => exact ⟨fun _ => trivial, fun _ => pure []⟩
  | cons a as ih =>
      rw [List.mapM_cons, bind_iff, InTurn, ← ih]
      refine and_congr_right fun _ => ⟨?_, ?_⟩
      · rintro h ⟨b, hb⟩
        exact (bind_iff.mp (h b hb)).1
      · intro h b hb
        exact bind (h ⟨b, hb⟩) fun bs _ => pure (b :: bs)

theorem mapM {f : α → Outcome ε β} {as : List α} (h : ∀ a ∈ as, NoPanic (f a)) : NoPanic (as.mapM f) := by
  rw [mapM_iff]
  induction as with
  | nil => trivial
  | cons a as ih => exact ⟨h a List.mem_cons_self, fun _ => ih fun b hb => h b (List.mem_cons_of_mem _ hb)⟩

theorem add_iff : NoPanic (Outcome.add limit a b : Outcome ε Nat) ↔ a + b < limit := by
  unfold Outcome.add
  split
  · next h => exact ⟨fun _ => h, fun _ => ok _⟩
  · next h => exact ⟨fun hsafe => absurd rfl (hsafe _), fun hlt => absurd hlt h⟩

theorem sub_iff : NoPanic (Outcome.sub a b : Outcome ε Nat) ↔ b ≤ a := by
  unfold Outcome.sub
  split
  · next h => exact ⟨fun _ => h, fun _ => ok _⟩
  · next h => exact ⟨fun hsafe => absurd rfl (hsafe _), fun hle => absurd hle h⟩

theorem slice {xs : List α} (h : start ≤ stop) (h' : stop ≤ xs.length) : NoPanic (Outcome.slice xs start stop : Outcome ε (List α)) := by
  rw [slice_eq h h']
  exact ok _

end NoPanic

end Outcome
