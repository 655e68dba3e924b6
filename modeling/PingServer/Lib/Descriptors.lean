import Mathlib.Logic.Basic

/-!
# Tables of descriptors

A table says what each descriptor of a process refers to. The system gives out
the lowest free number.
-/

namespace Descriptors

abbrev Table (α : Type) := Nat → Option α

variable {α : Type} {t : Table α} {fd k : Nat} {x y : α}

/-- The number that `open` returns. -/
def Lowest (t : Table α) (fd : Nat) : Prop := t fd = none ∧ ∀ k, k < fd → t k ≠ none

def assign (t : Table α) (fd : Nat) (x : α) : Table α := fun k => if k = fd then some x else t k

def release (t : Table α) (fd : Nat) : Table α := fun k => if k = fd then none else t k

instance [DecidableEq α] : Decidable (Lowest t fd) :=
  inferInstanceAs (Decidable (_ ∧ ∀ k, k < fd → _))

@[simp] theorem assign_self : assign t fd x fd = some x := if_pos rfl

@[simp] theorem assign_of_ne (h : k ≠ fd) : assign t fd x k = t k := if_neg h

@[simp] theorem release_of_ne (h : k ≠ fd) : release t fd k = t k := if_neg h

/-- A new descriptor is none that is open. -/
theorem assign_keeps (hfree : t fd = none) (hk : t k = some y) : assign t fd x k = some y := by
  rw [assign_of_ne, hk]
  rintro rfl
  rw [hfree] at hk
  cases hk

theorem Lowest.assign_keeps (h : Lowest t fd) (hk : t k = some y) : assign t fd x k = some y :=
  Descriptors.assign_keeps h.1 hk

/-- Giving a descriptor back as soon as it was opened changes nothing. -/
theorem release_assign (hfree : t fd = none) : release (assign t fd x) fd = t := by
  funext k
  by_cases hk : k = fd
  · rw [hk, hfree]
    exact if_pos rfl
  · rw [release_of_ne hk, assign_of_ne hk]

end Descriptors
