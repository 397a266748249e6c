import Mathlib.Tactic.Common

/-! Taking apart computations that may fail. A result of a sequence comes from a result of each of
its parts, so a successful run can be read off part by part. -/

namespace LocalTables

variable {ε α β : Type}

theorem bind_eq_ok {x : Except ε α} {f : α → Except ε β} {b : β} :
    (x >>= f) = .ok b ↔ ∃ a, x = .ok a ∧ f a = .ok b := by
  cases x with
  | error e => exact ⟨(nomatch ·), fun ⟨_, h, _⟩ => nomatch h⟩
  | ok a => exact ⟨fun h => ⟨a, rfl, h⟩, fun ⟨_, h, h'⟩ => Except.ok.inj h ▸ h'⟩

theorem pure_eq_ok {a b : α} : (pure a : Except ε α) = .ok b ↔ a = b :=
  ⟨Except.ok.inj, fun h => h ▸ rfl⟩

theorem toOption_eq_some {x : Except ε α} {a : α} : x.toOption = some a ↔ x = .ok a := by
  cases x with
  | error e => exact ⟨(nomatch ·), (nomatch ·)⟩
  | ok b => exact ⟨fun h => congrArg Except.ok (Option.some.inj h), fun h => congrArg some (Except.ok.inj h)⟩

/-- A guard that passed. -/
theorem ite_throw_eq_ok {p : Prop} [Decidable p] {e : ε} {x : Except ε α} {b : α} :
    (if p then throw e else x) = .ok b ↔ ¬p ∧ x = .ok b := by
  split
  · exact ⟨(nomatch ·), fun h => absurd ‹_› h.1⟩
  · exact ⟨fun h => ⟨‹_›, h⟩, fun h => h.2⟩

/-- A loop that got to its end: an invariant of its steps holds of the result. -/
theorem foldlM_ok {σ : Type} {f : σ → α → Except ε σ} {P : σ → Prop}
    (hstep : ∀ s a s', P s → f s a = .ok s' → P s') {as : List α} {s s' : σ} (hs : P s)
    (h : as.foldlM f s = .ok s') : P s' := by
  induction as generalizing s with
  | nil => exact Except.ok.inj h ▸ hs
  | cons a as ih =>
      obtain ⟨s₁, hs₁, h⟩ := bind_eq_ok.mp h
      exact ih (hstep s a s₁ hs hs₁) h

theorem mapM_ok {f : α → Except ε β} {as : List α} {bs : List β} (h : as.mapM f = .ok bs) :
    List.Forall₂ (fun a b => f a = .ok b) as bs := by
  induction as generalizing bs with
  | nil =>
      rw [List.mapM_nil] at h
      rw [← Except.ok.inj h]
      exact .nil
  | cons a as ih =>
      rw [List.mapM_cons] at h
      obtain ⟨b, hb, h⟩ := bind_eq_ok.mp h
      obtain ⟨rest, hrest, h⟩ := bind_eq_ok.mp h
      rw [← Except.ok.inj h]
      exact .cons hb (ih hrest)

/-- A map none of whose steps fails. -/
theorem mapM_eq_ok {f : α → Except ε β} {g : α → β} {as : List α} (h : ∀ a ∈ as, f a = .ok (g a)) :
    as.mapM f = .ok (as.map g) := by
  induction as with
  | nil => rfl
  | cons a as ih =>
      rw [List.mapM_cons, h a List.mem_cons_self, ih fun b hb => h b (List.mem_cons_of_mem _ hb)]
      rfl

/-- Every step succeeds, with something known of its result. -/
theorem mapM_forall₂ {f : α → Except ε β} {P : α → β → Prop} {as : List α} (h : ∀ a ∈ as, ∃ b, f a = .ok b ∧ P a b) :
    ∃ bs, as.mapM f = .ok bs ∧ List.Forall₂ P as bs := by
  induction as with
  | nil => exact ⟨[], rfl, .nil⟩
  | cons a as ih =>
      obtain ⟨b, hb, hP⟩ := h a List.mem_cons_self
      obtain ⟨bs, hbs, hall⟩ := ih fun a ha => h a (List.mem_cons_of_mem _ ha)
      refine ⟨b :: bs, ?_, .cons hP hall⟩
      rw [List.mapM_cons, hb, hbs]
      rfl

theorem mapM_total {f : α → Except ε β} {as : List α} (h : ∀ a ∈ as, ∃ b, f a = .ok b) : ∃ bs, as.mapM f = .ok bs := by
  induction as with
  | nil => exact ⟨[], rfl⟩
  | cons a as ih =>
      obtain ⟨b, hb⟩ := h a List.mem_cons_self
      obtain ⟨bs, hbs⟩ := ih fun a ha => h a (List.mem_cons_of_mem _ ha)
      rw [List.mapM_cons, hb, hbs]
      exact ⟨b :: bs, rfl⟩

theorem mapM_mem {f : α → Except ε β} {as : List α} {bs : List β} (h : as.mapM f = .ok bs) {b : β} (hb : b ∈ bs) :
    ∃ a ∈ as, f a = .ok b := by
  have hforall := mapM_ok h
  clear h
  induction hforall with
  | nil => cases hb
  | @cons a _ as _ hab _ ih =>
      rcases List.mem_cons.mp hb with rfl | hb
      · exact ⟨a, List.mem_cons_self, hab⟩
      · obtain ⟨x, hx, hfx⟩ := ih hb
        exact ⟨x, List.mem_cons_of_mem a hx, hfx⟩

theorem mapM_exists {f : α → Except ε β} {as : List α} {bs : List β} (h : as.mapM f = .ok bs) {a : α} (ha : a ∈ as) :
    ∃ b ∈ bs, f a = .ok b := by
  have hforall := mapM_ok h
  clear h
  induction hforall with
  | nil => cases ha
  | @cons a' b as bs hab _ ih =>
      rcases List.mem_cons.mp ha with rfl | ha
      · exact ⟨b, List.mem_cons_self, hab⟩
      · obtain ⟨b', hb', hfound⟩ := ih ha
        exact ⟨b', List.mem_cons_of_mem _ hb', hfound⟩

/-- The results are in the order of the arguments. -/
theorem mapM_getElem? {f : α → Except ε β} {as : List α} {bs : List β} (h : as.mapM f = .ok bs) {index : Nat} {b : β} :
    bs[index]? = some b ↔ ∃ a, as[index]? = some a ∧ f a = .ok b := by
  have hforall := mapM_ok h
  clear h
  induction hforall generalizing index with
  | nil => simp
  | @cons a b' as bs hab _ ih =>
      cases index with
      | zero =>
          simp only [List.getElem?_cons_zero, Option.some.injEq]
          constructor
          · rintro rfl
            exact ⟨a, rfl, hab⟩
          · rintro ⟨a', rfl, ha'⟩
            exact Except.ok.inj (hab.symm.trans ha')
      | succ index => simpa only [List.getElem?_cons_succ] using ih

/-- What the results have in common with the arguments they come from. -/
theorem mapM_map {γ : Type} {f : α → Except ε β} {as : List α} {bs : List β} (h : as.mapM f = .ok bs) {g : β → γ}
    {k : α → γ} (hone : ∀ a b, f a = .ok b → g b = k a) : bs.map g = as.map k := by
  have hforall := mapM_ok h
  clear h
  induction hforall with
  | nil => rfl
  | cons hab _ ih => rw [List.map_cons, List.map_cons, ih, hone _ _ hab]

end LocalTables
