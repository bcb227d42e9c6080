import Mathlib.Tactic.Common

/-!
# Computations that may fail

A computation fails only in allowed ways, and what it returns has a property.
The rules follow the steps of a computation.
-/

namespace Ucmq.FailureSpec

universe u v

variable {ε : Type v} {α β : Type u} {allowed : ε → Prop} {P Q : α → Prop} {x : Except ε α}

/-- A failure is allowed, and a value has the property. -/
def Ensures (allowed : ε → Prop) (x : Except ε α) (P : α → Prop) : Prop :=
  match x with
  | .error e => allowed e
  | .ok a => P a

/-- A result that satisfies the condition. -/
theorem Ensures.ok {a : α} (h : P a) : Ensures allowed (.ok a) P := h

/-- The same, as a computation that does nothing. -/
theorem Ensures.pure {a : α} (h : P a) : Ensures allowed (pure a : Except ε α) P := h

/-- An allowed failure. -/
theorem Ensures.error {e : ε} (h : allowed e) : Ensures allowed (.error e) P := h

/-- A weaker condition is ensured too. -/
theorem Ensures.mono (h : Ensures allowed x P) (himp : ∀ a, P a → Q a) : Ensures allowed x Q := by
  cases x with
  | error e => exact h
  | ok a => exact himp a h

/-- Two conditions are ensured together. -/
theorem Ensures.and {allowed' : ε → Prop} (h : Ensures allowed x P) (h' : Ensures allowed' x Q) :
    Ensures allowed' x fun a => P a ∧ Q a := by
  cases x with
  | error e => exact h'
  | ok a => exact ⟨h, h'⟩

/-- The value is what the computation returns. -/
theorem Ensures.returned (h : Ensures allowed x P) : Ensures allowed x fun a => P a ∧
    x = .ok a := by
  cases x with
  | error e => exact h
  | ok a => exact ⟨h, rfl⟩

/-- What the first step returns is passed to the second. -/
theorem Ensures.bind {f : α → Except ε β} {R : β → Prop} (h : Ensures allowed x P)
    (hf : ∀ a, P a → Ensures allowed (f a) R) : Ensures allowed (x >>= f) R := by
  cases x with
  | error e => exact h
  | ok a => exact hf a h

/-- Failures may be renamed. -/
theorem Ensures.mapError {ε' : Type v} {allowed' : ε' → Prop} {f : ε → ε'} (h : Ensures allowed x P)
    (hf : ∀ e, allowed e → allowed' (f e)) : Ensures allowed' (x.mapError f) P := by
  cases x with
  | error e => exact hf e h
  | ok a => exact h

/-- A first step that returns is passed over. -/
theorem Ensures.ok_bind {a : α} {f : α → Except ε β} {R : β → Prop} (h : Ensures allowed (f a) R) :
    Ensures allowed (.ok a >>= f) R := h

/-- The result of a computation that succeeds. -/
theorem Ensures.of_ok {a : α} (h : Ensures allowed x P) (hx : x = .ok a) : P a := by
  subst hx
  exact h

/-- The failure of one that does not. -/
theorem Ensures.of_error {e : ε} (h : Ensures allowed x P) (hx : x = .error e) : allowed e := by
  subst hx
  exact h

end Ucmq.FailureSpec
