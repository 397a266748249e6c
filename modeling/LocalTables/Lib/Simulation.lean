import LocalTables.Lib.Except

/-! Labelled transition systems and simulations between them. A run is read from its start, and a relation kept by
every step is kept by the run; so is one between two loops that go over the same items. -/

namespace Simulation

variable {σ σ' ε α γ : Type}

/-- The states that can be reached, each with the labels of the steps that led there. -/
inductive Run (init : σ → Prop) (step : σ → ε → σ → Prop) : List ε → σ → Prop where
  | start {s : σ} (h : init s) : Run init step [] s
  | step {es : List ε} {e : ε} {s s' : σ} (hrun : Run init step es s) (hstep : step s e s') :
      Run init step (es ++ [e]) s'

namespace Run

variable {init : σ → Prop} {step : σ → ε → σ → Prop} {es : List ε} {s : σ}

/-- What holds at the start and is kept by every step holds in every state reached. -/
theorem invariant {P : σ → Prop} (hinit : ∀ s, init s → P s) (hstep : ∀ s e s', P s → step s e s' → P s')
    (hrun : Run init step es s) : P s := by
  induction hrun with
  | start h => exact hinit _ h
  | step _ hlast ih => exact hstep _ _ _ ih hlast

/-- A relation every step keeps, some step of the other system having the same label, takes runs to runs with the
same labels. -/
theorem simulates {init' : σ' → Prop} {step' : σ' → ε → σ' → Prop} {R : σ → σ' → Prop}
    (hinit : ∀ s, init s → ∃ s', init' s' ∧ R s s')
    (hstep : ∀ s e t s', R s s' → step s e t → ∃ t', step' s' e t' ∧ R t t') (hrun : Run init step es s) :
    ∃ s', Run init' step' es s' ∧ R s s' := by
  induction hrun with
  | start h =>
      obtain ⟨s', hs', hrelated⟩ := hinit _ h
      exact ⟨s', .start hs', hrelated⟩
  | step _ hlast ih =>
      obtain ⟨s', hrun', hrelated⟩ := ih
      obtain ⟨t', hstep', hrelated'⟩ := hstep _ _ _ _ hrelated hlast
      exact ⟨t', .step hrun' hstep', hrelated'⟩

end Run

/-- Two loops over the same items: where the first gets to its end, so does the second, and what relates their
states step by step relates their results. -/
theorem foldlM_related {f : σ → α → Except ε σ} {g : σ' → α → Except γ σ'} {R : σ → σ' → Prop} {as : List α}
    (hstep : ∀ a ∈ as, ∀ s s' u, R s s' → f s a = .ok u → ∃ u', g s' a = .ok u' ∧ R u u') {s u : σ} {s' : σ'}
    (h : R s s') (hfold : as.foldlM f s = .ok u) : ∃ u', as.foldlM g s' = .ok u' ∧ R u u' := by
  induction as generalizing s s' with
  | nil =>
      obtain rfl := Except.ok.inj hfold
      exact ⟨s', rfl, h⟩
  | cons a as ih =>
      obtain ⟨s₁, hfirst, hrest⟩ := LocalTables.bind_eq_ok.mp hfold
      obtain ⟨s₁', hfirst', hrelated⟩ := hstep a List.mem_cons_self s s' s₁ h hfirst
      obtain ⟨u', hrest', hdone⟩ := ih (fun b hb => hstep b (List.mem_cons_of_mem a hb)) hrelated hrest
      apply Exists.intro u'
      exact ⟨LocalTables.bind_eq_ok.mpr ⟨s₁', hfirst', hrest'⟩, hdone⟩

end Simulation
