import Mathlib

/-!
# Computations that can fail

A sequence of computations succeeds if and only if its parts do. Sequences are taken apart by this
rule, with and without a state.
-/

namespace NativeCode

variable {ε α β σ : Type} {x : Except ε α} {b : β}

theorem bind_eq_ok_iff {k : α → Except ε β} :
    x >>= k = .ok b ↔ ∃ a, x = .ok a ∧ k a = .ok b := by
  cases x with
  | error e => exact ⟨by rintro ⟨⟩, by rintro ⟨_, ⟨⟩, -⟩⟩
  | ok a => exact ⟨fun h => ⟨a, rfl, h⟩, by rintro ⟨_, ⟨⟩, h⟩; exact h⟩

/-- A computation that succeeds has a first part that does. -/
theorem exists_ok_of_bind {k : α → Except ε β}
    (h : (do k (← x)) = .ok b) : ∃ a, x = .ok a ∧ k a = .ok b := bind_eq_ok_iff.mp h

lemma map_eq_ok_iff {g : α → β} :
    x.map g = .ok b ↔ ∃ a, x = .ok a ∧ g a = b := by
  cases x <;> simp [Except.map]

theorem mapError_eq_ok_iff {ε' : Type} {g : ε → ε'} {a : α} :
    x.mapError g = .ok a ↔ x = .ok a := by
  cases x <;> simp [Except.mapError]

theorem mapError_eq_error_iff {ε' : Type} {g : ε → ε'} {e : ε'} :
    x.mapError g = .error e ↔ ∃ e', x = .error e' ∧ g e' = e := by
  cases x <;> simp [Except.mapError]

theorem run_bind_eq_ok_iff {x : StateT σ (Except ε) α} {k : α → StateT σ (Except ε) β} {s : σ}
    {r : β × σ} :
    (x >>= k).run s = .ok r ↔ ∃ a s', x.run s = .ok (a, s') ∧ (k a).run s' = .ok r := by
  rw [StateT.run_bind, bind_eq_ok_iff]
  exact Prod.exists

theorem run_lift_bind_eq_ok_iff {k : α → StateT σ (Except ε) β} {s : σ} {r : β × σ} :
    (liftM x >>= k).run s = .ok r ↔ ∃ a, x = .ok a ∧ (k a).run s = .ok r := by
  cases x with
  | error e => exact ⟨by rintro ⟨⟩, by rintro ⟨_, ⟨⟩, -⟩⟩
  | ok a => exact ⟨fun h => ⟨a, rfl, h⟩, by rintro ⟨_, ⟨⟩, h⟩; exact h⟩

end NativeCode
