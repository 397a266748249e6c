import Mathlib.Data.Multiset.Filter
import Mathlib.Data.Multiset.Replicate
import Mathlib.Algebra.BigOperators.Group.Multiset.Basic

/-! A store as its users think of it: a bag of values, each at an address. A call makes a sequence of updates, each of
which takes away what is at some addresses and puts new values at others. A call that is cut short has made a prefix of
its updates, and housekeeping may move values to other addresses. -/

namespace Bag

variable {ι α : Type}

/-- Values, each at an address. -/
abbrev Store (ι α : Type) := Multiset (ι × α)

/-- One update: the addresses it empties, and what it puts in. -/
structure Update (ι α : Type) where
  gone : ι → Prop
  added : Store ι α

/-- Values to be put in, with nothing taken away. -/
def put (added : Store ι α) : Update ι α := ⟨fun _ => False, added⟩

open scoped Classical in
noncomputable def Update.apply (s : Store ι α) (u : Update ι α) : Store ι α :=
  (s.filter fun entry => ¬u.gone entry.1) + u.added

noncomputable def applyAll (us : List (Update ι α)) (s : Store ι α) : Store ι α := us.foldl Update.apply s

/-- What may become of a store. -/
inductive Event (ι α : Type) where
  /-- A call returned after these updates. -/
  | done (us : List (Update ι α))
  /-- A call with these updates was cut short. -/
  | torn (us : List (Update ι α))
  /-- Values were moved to other addresses. -/
  | moved

/-- The stores an event can lead to. -/
def Event.Allows (s : Store ι α) : Event ι α → Store ι α → Prop
  | done us, s' => s' = applyAll us s
  | torn us, s' => ∃ front, front <+: us ∧ s' = applyAll front s
  | moved, s' => s'.map Prod.snd = s.map Prod.snd

/-- Runs of a store that starts out empty. -/
def Empty (s : Store ι α) : Prop := s = 0

/-- A store whose values all have one shape. -/
structure Shaped (κ ι α : Type) where
  shape : κ
  store : Store ι α

/-- What may become of a store whose shape can be changed, by changes of type `γ`. -/
inductive Shaped.Event (γ ι α : Type) where
  /-- Something became of the values. -/
  | values (event : Bag.Event ι α)
  /-- A change of shape returned. -/
  | change (c : γ)
  /-- A change of shape was cut short. -/
  | cutChange (c : γ)

/-- A change of shape reshapes every value where it is, if it means anything for the shape there is. -/
def Shaped.Reshapes {κ γ : Type} (meaning : κ → γ → Option (κ × (α → α))) (s : Shaped κ ι α) (c : γ) (s' : Shaped κ ι α) : Prop :=
  ∃ shape reshape, meaning s.shape c = some (shape, reshape) ∧
    s' = ⟨shape, s.store.map fun entry => (entry.1, reshape entry.2)⟩

/-- The shaped stores an event can lead to. -/
def Shaped.Event.Allows {κ γ : Type} (meaning : κ → γ → Option (κ × (α → α))) (s : Shaped κ ι α) :
    Shaped.Event γ ι α → Shaped κ ι α → Prop
  | values event, s' => s'.shape = s.shape ∧ event.Allows s.store s'.store
  | change c, s' => s.Reshapes meaning c s'
  | cutChange c, s' => s' = s ∨ s.Reshapes meaning c s'

section Lemmas

variable {s s' : Store ι α} {us : List (Update ι α)}

@[simp] theorem applyAll_nil : applyAll [] s = s := rfl

theorem applyAll_cons (u : Update ι α) : applyAll (u :: us) s = applyAll us (u.apply s) := rfl

@[simp] theorem apply_put (added : Store ι α) : (put added).apply s = s + added := by
  classical
  unfold Update.apply put
  simp

theorem applyAll_puts (parts : List (Store ι α)) : applyAll (parts.map put) s = s + parts.sum := by
  induction parts generalizing s with
  | nil => simp
  | cons part parts ih =>
      calc applyAll ((part :: parts).map put) s
          = applyAll (parts.map put) (s + part) := by rw [List.map_cons, applyAll_cons, apply_put]
        _ = s + part + parts.sum := ih
        _ = s + (part :: parts).sum := by rw [List.sum_cons, add_assoc]

/-- What is at an address after some updates was there before, unless one of them put it there. -/
theorem mem_applyAll {P : ι → Prop} (hadded : ∀ u ∈ us, ∀ entry ∈ u.added, ¬P entry.1) {entry : ι × α}
    (hentry : entry ∈ applyAll us s) (hold : P entry.1) : entry ∈ s := by
  classical
  induction us generalizing s with
  | nil => exact hentry
  | cons u us ih =>
      have happlied : entry ∈ u.apply s := by
        apply ih _ hentry
        intro other hother
        exact hadded other (List.mem_cons_of_mem _ hother)
      rcases Multiset.mem_add.mp happlied with hkept | hnew
      · exact (Multiset.mem_filter.mp hkept).1
      · exact absurd hold (hadded u List.mem_cons_self entry hnew)

/-- A call cut short before its first update has done nothing. -/
theorem Event.Allows.untouched (s : Store ι α) (us : List (Update ι α)) : (Event.torn us).Allows s s :=
  ⟨[], List.nil_prefix, rfl⟩

/-- A call cut short after its last update has done everything. -/
theorem Event.Allows.whole (h : (Event.done us).Allows s s') : (Event.torn us).Allows s s' :=
  ⟨us, List.prefix_refl us, h⟩

end Lemmas

end Bag
