import Mathlib.Tactic.Common

/-!
# Postconditions of computations that may stop

A computation either gives a value or stops with a reason. `Ends` asks one
condition of the value and another of the reason, and the rules below follow
the program text: a sequence, a branch, a weaker condition.
-/
namespace TaskLunev.ExceptRules

universe u v
variable {ε : Type u} {α β : Type v}

def Ends (onStop : ε → Prop) (onValue : α → Prop) : Except ε α → Prop
  | .ok a => onValue a
  | .error e => onStop e

variable {onStop onStop' : ε → Prop} {P P' : α → Prop} {Q : β → Prop}

theorem Ends.bind {x : Except ε α} {f : α → Except ε β} (hx : Ends onStop P x)
    (hf : ∀ a, P a → Ends onStop Q (f a)) : Ends onStop Q (x >>= f) := by
  cases x with
  | ok a => exact hf a hx
  | error e => exact hx

theorem Ends.ite {c : Prop} [Decidable c] {x y : Except ε α} (hx : c → Ends onStop P x)
    (hy : ¬ c → Ends onStop P y) : Ends onStop P (if c then x else y) := by
  split_ifs with hc
  · exact hx hc
  · exact hy hc

theorem Ends.mono {x : Except ε α} (hx : Ends onStop P x) (hstop : ∀ e, onStop e → onStop' e)
    (hP : ∀ a, P a → P' a) : Ends onStop' P' x := by
  cases x with
  | ok a => exact hP a hx
  | error e => exact hstop e hx

/-- A sequence gives a value exactly when both its parts do. -/
theorem bind_eq_ok {x : Except ε α} {f : α → Except ε β} {b : β} :
    x >>= f = .ok b ↔ ∃ a, x = .ok a ∧ f a = .ok b := by
  cases x with
  | ok a => exact ⟨fun h => ⟨a, rfl, h⟩, fun ⟨_, ha, h⟩ => Except.ok.inj ha ▸ h⟩
  | error e =>
      constructor
      · intro h
        cases h
      · intro ⟨_, ha, _⟩
        cases ha

end TaskLunev.ExceptRules
